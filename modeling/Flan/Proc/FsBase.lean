import Flan.Proc.Context
import Flan.Proc.RoundRobin

/-! The FS base of the CPUs. `syscall_set_fs_base` writes the register of the CPU
it is called on; `sched_vector` neither saves nor loads it. -/
namespace Flan.Proc
open Flan.Lib

/-! ### Calls -/

/-- One call of `syscall_set_fs_base`. -/
structure FsCall (n : Nat) where
  cpu : Fin n
  thread : Nat
  pointer : Nat

section History
variable {n : Nat}

/-- The last call on a CPU, and the last one of a thread. -/
def callOn (calls : List (FsCall n)) (c : Fin n) : Option (FsCall n) := calls.find? fun a => a.cpu = c
def callBy (calls : List (FsCall n)) (t : Nat) : Option (FsCall n) := calls.find? fun a => a.thread = t

/-- The value of the last call of a thread. -/
def valueBy (calls : List (FsCall n)) (t : Nat) : Option Nat := (callBy calls t).map FsCall.pointer

/-- The value of the last call on a CPU, or what the register held at boot. -/
def valueOn (fs₀ : Fin n → Nat) (calls : List (FsCall n)) (c : Fin n) : Nat :=
  ((callOn calls c).map FsCall.pointer).getD (fs₀ c)

/-- A thread that has called was the last one to do so on the CPU, and has not done so on
another one since. -/
def OwnCall (calls : List (FsCall n)) (c : Fin n) (t : Nat) : Prop :=
  (callBy calls t).isSome → (callOn calls c).map FsCall.thread = some t ∧ (callBy calls t).map FsCall.cpu = some c

instance (calls : List (FsCall n)) (c : Fin n) (t : Nat) : Decidable (OwnCall calls c t) :=
  inferInstanceAs (Decidable (_ → _ ∧ _))

/-- No address is set twice, or the one of a CPU at boot. -/
def FreshValues (fs₀ : Fin n → Nat) (calls : List (FsCall n)) : Prop :=
  (calls.map FsCall.pointer).Nodup ∧ ∀ a ∈ calls, ∀ c, fs₀ c ≠ a.pointer

theorem callOn_cons (a : FsCall n) (calls : List (FsCall n)) (c : Fin n) :
    callOn (a :: calls) c = if c = a.cpu then some a else callOn calls c := by
  rw [callOn, List.find?_cons]
  by_cases h : c = a.cpu
  · simp [h]
  · simp [h, Ne.symm h, callOn]

theorem callBy_cons (a : FsCall n) (calls : List (FsCall n)) (t : Nat) :
    callBy (a :: calls) t = if t = a.thread then some a else callBy calls t := by
  rw [callBy, List.find?_cons]
  by_cases h : t = a.thread
  · simp [h]
  · simp [h, Ne.symm h, callBy]

theorem valueOn_cons (fs₀ : Fin n → Nat) (a : FsCall n) (calls : List (FsCall n)) (c : Fin n) :
    valueOn fs₀ (a :: calls) c = if c = a.cpu then a.pointer else valueOn fs₀ calls c := by
  rw [valueOn, callOn_cons]
  split
  · rfl
  · rfl

theorem valueBy_cons (a : FsCall n) (calls : List (FsCall n)) (t : Nat) :
    valueBy (a :: calls) t = if t = a.thread then some a.pointer else valueBy calls t := by
  rw [valueBy, callBy_cons]
  split
  · rfl
  · rfl

/-- The last call on the CPU and the last one of the thread are then the same. -/
theorem callOn_eq_callBy {calls : List (FsCall n)} {c : Fin n} {t : Nat}
    (hon : (callOn calls c).map FsCall.thread = some t) (hby : (callBy calls t).map FsCall.cpu = some c) :
    callOn calls c = callBy calls t := by
  induction calls with
  | nil => cases hon
  | cons a calls ih =>
      rw [callOn_cons] at hon ⊢
      rw [callBy_cons] at hby ⊢
      by_cases hc : c = a.cpu
      · rw [if_pos hc] at hon ⊢
        rw [if_pos (Option.some.inj hon).symm]
      · have ht : t ≠ a.thread := by
          intro ht
          rw [if_pos ht] at hby
          exact hc (Option.some.inj hby).symm
        rw [if_neg hc] at hon ⊢
        rw [if_neg ht] at hby ⊢
        exact ih hon hby

theorem OwnCall.value {calls : List (FsCall n)} {c : Fin n} {t v : Nat} (h : OwnCall calls c t)
    (hv : valueBy calls t = some v) (fs₀ : Fin n → Nat) : valueOn fs₀ calls c = v := by
  obtain ⟨b, hb, rfl⟩ := Option.map_eq_some_iff.mp hv
  obtain ⟨hon, hby⟩ := h (Option.isSome_iff_exists.mpr ⟨b, hb⟩)
  rw [valueOn, callOn_eq_callBy hon hby, hb]
  rfl

/-- Where all values are different, one of them tells which call it comes from. -/
theorem ownCall_of_value {fs₀ : Fin n → Nat} {calls : List (FsCall n)} {c : Fin n} {t : Nat}
    (hfresh : FreshValues fs₀ calls) (h : ∀ v, valueBy calls t = some v → valueOn fs₀ calls c = v) :
    OwnCall calls c t := by
  intro hcalled
  obtain ⟨b, hb⟩ := Option.isSome_iff_exists.mp hcalled
  have hval := h b.pointer (by rw [valueBy, hb]; rfl)
  have hmem : b ∈ calls := List.mem_of_find?_eq_some hb
  have hthread : b.thread = t := by simpa using List.find?_some hb
  cases ha : callOn calls c with
  | none =>
      rw [valueOn, ha] at hval
      exact absurd hval (hfresh.2 b hmem c)
  | some a =>
      rw [valueOn, ha] at hval
      have hcpu : a.cpu = c := by simpa using List.find?_some ha
      obtain rfl := List.inj_on_of_nodup_map hfresh.1 (List.mem_of_find?_eq_some ha) hmem hval
      rw [hb, Option.map_some, Option.map_some, hthread, hcpu]
      exact ⟨rfl, rfl⟩

end History

/-! ### Runs -/

/-- The machine with the register `MSR_FSBASE` of every CPU, and the calls made so
far, the last one first. -/
structure FsWorld (n : Nat) where
  world : World n
  fs : Fin n → Nat
  calls : List (FsCall n)

inductive FsEvent (n : Nat) where
  | sched (e : Event n)
  | setFsBase (c : Fin n) (pointer : Nat)

section Runs
variable {n : Nat}

/-- A step of the scheduler leaves the register alone. The thread that makes the
system call is the current one of its CPU, and no idle thread. -/
inductive FsStep : FsWorld n → FsEvent n → FsWorld n → Prop
  | sched {u : FsWorld n} {e : Event n} {r : Option (Nat × InterruptFrame)} {w' : World n}
      (h : Step u.world e r w') : FsStep u (.sched e) { u with world := w' }
  | setFsBase {u : FsWorld n} {c : Fin n} {pointer : Nat}
      (h : u.world.sched.current c ≠ u.world.sched.idle c) :
      FsStep u (.setFsBase c pointer)
        { u with
          fs := Function.update u.fs c pointer
          calls := ⟨c, u.world.sched.current c, pointer⟩ :: u.calls }

/-- Every CPU has the value that its current thread last set. -/
def FsKept (u : FsWorld n) : Prop :=
  ∀ c v, valueBy u.calls (u.world.sched.current c) = some v → u.fs c = v

/-- The thread that a tick is to take has set its FS base on this CPU, and no other thread
has set one here since; or it has set none at all. -/
def SetHereLast (u : FsWorld n) : FsEvent n → Prop
  | .sched (.tick c _) => ∀ t, u.world.sched.Picks c t → OwnCall u.calls c t
  | _ => True

inductive FsRun (C : FsWorld n → FsEvent n → Prop) (u : FsWorld n) : FsWorld n → Prop
  | refl : FsRun C u u
  | tail {v v' : FsWorld n} {e : FsEvent n} (h : FsRun C u v) (hc : C v e) (hs : FsStep v e v') : FsRun C u v'

theorem FsRun.mono {C C' : FsWorld n → FsEvent n → Prop} (hle : ∀ u e, C u e → C' u e) {u u' : FsWorld n}
    (h : FsRun C u u') : FsRun C' u u' := by
  induction h with
  | refl => exact .refl
  | tail _ hc hs ih => exact ih.tail (hle _ _ hc) hs

def fsBoot (order : List (Fin n × Nat)) (fs₀ : Fin n → Nat) : FsWorld n :=
  { world := boot order, fs := fs₀, calls := [] }

/-- The steps as a function, for runs on given events. -/
def FsWorld.exec (fuel : Nat) (u : FsWorld n) : FsEvent n → Option (FsWorld n)
  | .sched e => (u.world.exec fuel e).map fun p => { u with world := p.1 }
  | .setFsBase c pointer =>
      if u.world.sched.current c ≠ u.world.sched.idle c then
        some { u with
          fs := Function.update u.fs c pointer
          calls := ⟨c, u.world.sched.current c, pointer⟩ :: u.calls }
      else none

def FsWorld.run (C : FsWorld n → FsEvent n → Prop) [∀ u e, Decidable (C u e)] (fuel : Nat) :
    FsWorld n → List (FsEvent n) → Option (FsWorld n)
  | u, [] => some u
  | u, e :: es => if C u e then (u.exec fuel e).bind fun u' => FsWorld.run C fuel u' es else none

theorem FsWorld.step_of_exec {fuel : Nat} {u u' : FsWorld n} {e : FsEvent n}
    (h : u.exec fuel e = some u') : FsStep u e u' := by
  cases e with
  | sched e =>
      obtain ⟨p, hp, rfl⟩ := Option.map_eq_some_iff.mp h
      exact .sched (World.step_of_exec hp)
  | setFsBase c pointer =>
      obtain ⟨hne, heq⟩ := Option.ite_none_right_eq_some.mp h
      cases heq
      exact .setFsBase hne

theorem FsWorld.fsRun_of_run {C : FsWorld n → FsEvent n → Prop} [∀ u e, Decidable (C u e)] {fuel : Nat}
    {u₀ u u' : FsWorld n} {es : List (FsEvent n)} (h₀ : FsRun C u₀ u) (h : u.run C fuel es = some u') :
    FsRun C u₀ u' := by
  induction es generalizing u with
  | nil =>
      cases h
      exact h₀
  | cons e es ih =>
      obtain ⟨hc, hrest⟩ := Option.ite_none_right_eq_some.mp h
      obtain ⟨v, hv, hnext⟩ := Option.bind_eq_some_iff.mp hrest
      exact ih (.tail h₀ hc (FsWorld.step_of_exec hv)) hnext

/-! ### Steps -/

/-- The CPUs that a step of the scheduler moves. -/
def Moves (s s' : Sched n) : Event n → Prop
  | .tick c _ => ∀ d, d ≠ c → s'.current d = s.current d
  | .create .. => ∀ d, s'.current d = s.current d
  | .die c => ∀ d, s'.current d = if d = c then s.idle c else s.current d

theorem Step.moves {w w' : World n} {e : Event n} {r : Option (Nat × InterruptFrame)}
    (hw : SchedInv w) (h : Step w e r w') :
    (∀ d, w'.sched.idle d = w.sched.idle d) ∧ Moves w.sched w'.sched e := by
  obtain ⟨xs, hr, hx⟩ := hw
  cases h with
  | @tick c frame fuel s' r h =>
      rcases schedTick_spec (P := fun _ => True) (fun _ _ => trivial) trivial h with
        ⟨-, hstay⟩ | ⟨t, -, hswitch, -⟩
      · exact ⟨hstay.shape.idle, fun d _ => hstay.current d⟩
      · refine ⟨hswitch.shape.idle, fun d hd => ?_⟩
        rw [hswitch.current, if_neg hd]
  | create hz hnew => exact ⟨fun _ => rfl, fun _ => rfl⟩
  | @die c h =>
      have hdied := dequeueAndDie_spec (hr.enqueued _ (hx.currentOn c))
      exact ⟨hdied.idle, hdied.current⟩

/-- The register holds the last value set on its CPU, and no idle thread has set
one. -/
structure FsInv (fs₀ : Fin n → Nat) (u : FsWorld n) : Prop where
  sched : SchedInv u.world
  fs : ∀ c, u.fs c = valueOn fs₀ u.calls c
  idle : ∀ c, valueBy u.calls (u.world.sched.idle c) = none

theorem FsInv.step {fs₀ : Fin n → Nat} {u u' : FsWorld n} {e : FsEvent n} (h : FsInv fs₀ u)
    (hs : FsStep u e u') : FsInv fs₀ u' := by
  cases hs with
  | sched hstep =>
      refine ⟨schedInv_step h.sched hstep, h.fs, fun c => ?_⟩
      rw [(hstep.moves h.sched).1]
      exact h.idle c
  | @setFsBase c pointer hne =>
      refine ⟨h.sched, fun d => ?_, fun d => ?_⟩
      · rw [valueOn_cons, ← h.fs d]
        exact Function.update_apply u.fs c pointer d
      · obtain ⟨xs, hr, hx⟩ := h.sched
        rw [valueBy_cons, if_neg, h.idle d]
        intro heq
        have hcd := hx.ownIdle c d heq.symm
        subst hcd
        exact hne heq.symm

/-- A tick changes the thread of its own CPU only, and to the one that it picks. -/
theorem Step.tick_current {w w' : World n} {c : Fin n} {frame : InterruptFrame} {r : Option (Nat × InterruptFrame)}
    (h : Step w (.tick c frame) r w') :
    (r = none ∧ ∀ d, w'.sched.current d = w.sched.current d) ∨
    ∃ t f, r = some (t, f) ∧ w.sched.Picks c t ∧ ∀ d, w'.sched.current d = if d = c then t else w.sched.current d := by
  cases h with
  | tick h =>
      rcases schedTick_spec (P := fun _ => True) (fun _ _ => trivial) trivial h with ⟨rfl, hs⟩ | ⟨t, -, hs, rfl⟩
      · exact .inl ⟨rfl, hs.current⟩
      · exact .inr ⟨t, _, rfl, schedTick_picks h, hs.current⟩

/-- After a switch the values are where they should be exactly if the new thread's is. -/
theorem FsInv.switched_iff {fs₀ : Fin n → Nat} {u : FsWorld n} {w' : World n} {c : Fin n} {t : Nat}
    (h : FsInv fs₀ u) (hk : FsKept u)
    (hcur : ∀ d, w'.sched.current d = if d = c then t else u.world.sched.current d) :
    FsKept { u with world := w' } ↔ ∀ v, valueBy u.calls t = some v → valueOn fs₀ u.calls c = v := by
  constructor
  · intro hk' v hv
    rw [← h.fs c]
    refine hk' c v ?_
    simp only [hcur, if_true]
    exact hv
  · intro ht d v hv
    simp only [hcur] at hv
    split at hv
    case isTrue hd =>
        subst hd
        exact (h.fs d).trans (ht v hv)
    case isFalse => exact hk d v hv

/-- A step that meets the condition keeps the values where they are. -/
theorem FsInv.kept {fs₀ : Fin n → Nat} {u u' : FsWorld n} {e : FsEvent n} (h : FsInv fs₀ u)
    (hk : FsKept u) (hc : SetHereLast u e) (hs : FsStep u e u') : FsKept u' := by
  cases hs with
  | @sched e r w' hstep =>
      have hmoves := (hstep.moves h.sched).2
      cases e with
      | tick c frame =>
          rcases hstep.tick_current with ⟨-, hsame⟩ | ⟨t, -, -, hpick, hcur⟩
          · intro d v hv
            simp only [hsame] at hv
            exact hk d v hv
          · exact (h.switched_iff hk hcur).mpr fun v hv => (hc t hpick).value hv fs₀
      | create t cr3 frame =>
          intro d v hv
          simp only [hmoves d] at hv
          exact hk d v hv
      | die c =>
          intro d v hv
          simp only [hmoves d] at hv
          split at hv
          · rw [h.idle c] at hv
            cases hv
          · exact hk d v hv
  | @setFsBase c pointer hne =>
      intro d v hv
      obtain ⟨xs, hr, hx⟩ := h.sched
      rw [valueBy_cons] at hv
      by_cases hd : d = c
      · subst hd
        rw [if_pos rfl] at hv
        cases hv
        exact Function.update_self _ _ _
      · rw [if_neg fun heq => hd (hx.alone d c heq)] at hv
        exact (Function.update_of_ne hd _ _).trans (hk d v hv)

theorem fsInv_run {order : List (Fin n × Nat)} (ho : BootOrder order) {fs₀ : Fin n → Nat}
    {u : FsWorld n} (h : FsRun SetHereLast (fsBoot order fs₀) u) : FsInv fs₀ u ∧ FsKept u := by
  induction h with
  | refl => exact ⟨⟨schedInv_boot ho, fun _ => rfl, fun _ => rfl⟩, fun _ _ hv => nomatch hv⟩
  | tail _ hc hs ih => exact ⟨ih.1.step hs, ih.1.kept ih.2 hc hs⟩

/-- In every run whose switches all meet the condition, each CPU has the FS base that its
thread last set; and where no value is set twice, a switch that misses it breaks this. -/
theorem fs_base_kept_of_set_here_last {order : List (Fin n × Nat)} (ho : BootOrder order)
    {fs₀ : Fin n → Nat} {u : FsWorld n} (h : FsRun SetHereLast (fsBoot order fs₀) u) :
    FsKept u ∧ ∀ c frame t f w', Step u.world (.tick c frame) (some (t, f)) w' → FreshValues fs₀ u.calls →
      (FsKept { u with world := w' } ↔ OwnCall u.calls c t) := by
  obtain ⟨hinv, hk⟩ := fsInv_run ho h
  refine ⟨hk, fun c frame t f w' hs hfresh => ?_⟩
  rcases hs.tick_current with ⟨hnone, -⟩ | ⟨t', f', hsome, -, hcur⟩
  · cases hnone
  · obtain ⟨rfl, rfl⟩ := Prod.mk.inj (Option.some.inj hsome)
    rw [hinv.switched_iff hk hcur]
    exact ⟨ownCall_of_value hfresh, fun hown v hv => hown.value hv fs₀⟩

end Runs

theorem boot_order_one_cpu : BootOrder [((0 : Fin 1), 10)] :=
  ⟨by decide, by decide, by decide, by decide, by decide⟩

/-- Two user threads are made; the first one gets the CPU, sets its FS base and is
preempted. -/
def firstThread : List (FsEvent 1) :=
  [.sched (.create 20 0 { cs := 0x43 }), .sched (.create 21 0 { cs := 0x43 }),
    .sched (.tick 0 { cs := 0x28 }), .setFsBase 0 1, .sched (.tick 0 { cs := 0x43 })]

/-- Whoever has called has done so on this CPU only, and was the last one to. -/
def SoleCaller {n : Nat} (u : FsWorld n) : FsEvent n → Prop
  | .sched (.tick c _) => ∀ a ∈ u.calls, OwnCall u.calls c a.thread
  | _ => True

instance {n : Nat} (u : FsWorld n) : (e : FsEvent n) → Decidable (SoleCaller u e)
  | .sched (.tick c _) => inferInstanceAs (Decidable (∀ a ∈ u.calls, OwnCall u.calls c a.thread))
  | .sched (.create ..) => isTrue trivial
  | .sched (.die ..) => isTrue trivial
  | .setFsBase .. => isTrue trivial

theorem SoleCaller.setHereLast {n : Nat} {u : FsWorld n} {e : FsEvent n} (h : SoleCaller u e) : SetHereLast u e := by
  cases e with
  | setFsBase c pointer => trivial
  | sched e =>
      cases e with
      | create t cr3 frame => trivial
      | die c => trivial
      | tick c frame =>
          intro t _ hcalled
          obtain ⟨b, hb⟩ := Option.isSome_iff_exists.mp hcalled
          have hthread : b.thread = t := by simpa using List.find?_some hb
          have hown := h b (List.mem_of_find?_eq_some hb)
          rw [hthread] at hown
          exact hown hcalled

/-- The second thread sets no FS base, so the first one finds its own again. -/
theorem other_thread_without_fs_base : ∃ u : FsWorld 1,
    FsRun SetHereLast (fsBoot [(0, 10)] fun _ => 0) u ∧ u.world.sched.current 0 = 20 ∧ u.fs 0 = 1 := by
  obtain ⟨u, hu⟩ : ∃ u, (fsBoot [((0 : Fin 1), 10)] fun _ => 0).run SoleCaller 5
      (firstThread ++ [.sched (.tick 0 { cs := 0x43 })]) = some u := Option.isSome_iff_exists.mp (by decide +kernel)
  have hrun := (FsWorld.fsRun_of_run .refl hu).mono fun _ _ => SoleCaller.setHereLast
  have hcur : ((fsBoot [((0 : Fin 1), 10)] fun _ => 0).run SoleCaller 5
      (firstThread ++ [.sched (.tick 0 { cs := 0x43 })])).map (fun u =>
        (u.world.sched.current 0, valueBy u.calls 20)) = some (20, some 1) := by decide +kernel
  rw [hu] at hcur
  obtain ⟨hc, hv⟩ := Prod.mk.inj (Option.some.inj hcur)
  refine ⟨u, hrun, hc, (fs_base_kept_of_set_here_last boot_order_one_cpu hrun).1 0 1 ?_⟩
  rw [hc]
  exact hv

/-- The first thread runs again with the FS base of the second. -/
theorem switch_leaves_other_fs_base : ∃ u : FsWorld 1,
    FsRun (fun _ _ => True) (fsBoot [(0, 10)] fun _ => 0) u ∧
    u.world.sched.current 0 = 20 ∧ valueBy u.calls 20 = some 1 ∧ u.fs 0 = 2 := by
  obtain ⟨u, hu⟩ : ∃ u, (fsBoot [((0 : Fin 1), 10)] fun _ => 0).run (fun _ _ => True) 5
      (firstThread ++ [.setFsBase 0 2, .sched (.tick 0 { cs := 0x43 })]) = some u :=
    Option.isSome_iff_exists.mp (by decide +kernel)
  have hfacts : ((fsBoot [((0 : Fin 1), 10)] fun _ => 0).run (fun _ _ => True) 5
      (firstThread ++ [.setFsBase 0 2, .sched (.tick 0 { cs := 0x43 })])).map (fun u =>
        (u.world.sched.current 0, valueBy u.calls 20, u.fs 0)) = some (20, some 1, 2) := by decide +kernel
  rw [hu] at hfacts
  obtain ⟨hc, hrest⟩ := Prod.mk.inj (Option.some.inj hfacts)
  obtain ⟨hv, hfs⟩ := Prod.mk.inj hrest
  exact ⟨u, FsWorld.fsRun_of_run .refl hu, hc, hv, hfs⟩

end Flan.Proc
