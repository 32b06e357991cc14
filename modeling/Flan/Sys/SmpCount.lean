import Flan.Sys.Smp

/-! The values of `cpus_running` that the boot of `sys/smp.c` can end with: its increment is a read and
a write, and the CPUs that `smp_init` has started make them in any order. -/
namespace Flan.Sys
open Flan.Lib Flan.Memory Flan.Proc

/-! ### A CPU that runs alone -/

section Count
variable {n : Nat} {info : SmpInfo n} {s u : Smp n} {i : Fin n}

/-- Where each CPU is before it has begun. -/
def Begins (s : Smp n) (i : Fin n) : Prop := s.stage i = .tss ∧ s.gdt.due i = .before

/-- No CPU has a lock. -/
def Smp.Quiet (s : Smp n) : Prop := s.gdt.Quiet ∧ s.queue.Quiet

/-- Alone, a CPU comes through `gdt_load_tss`. -/
theorem tss_alone (h : SmpInv info s) (hquiet : s.gdt.Quiet) (hbegin : Begins s i) :
    ∃ m gdt, gdt.Quiet ∧ (coreStep info · i)^[m] s = { s with gdt := gdt }.to i .idle := by
  obtain ⟨hstage, hdue⟩ := hbegin
  obtain ⟨m, hafter, hq, hfirst⟩ := h.gdt.alone_first gdtBody_computes (fun _ => rfl) hquiet hdue
  refine ⟨m, _, hq, iterate_until (g := (coreStep info · i)) (p := fun gdt => { s with gdt := gdt })
    (q := fun gdt => { s with gdt := gdt }.to i .idle) (P := fun gdt => gdt.due i = .after) (fun gdt hgo => ?_)
    (fun gdt hstop => ?_) (by simp [hdue]) hafter hfirst⟩
  · simp only [coreStep, hstage, hgo, if_false]
  · simp only [coreStep, hstage, hstop, if_true]

/-- Alone, it comes through `sched_enqueue_thread`. -/
theorem enqueue_alone (h : SmpInv info s) (hquiet : s.queue.Quiet) (hstage : s.stage i = .enqueue)
    (hdue : s.queue.due i = .before) :
    ∃ m queue, queue.Quiet ∧ (coreStep info · i)^[m] s = { s with queue := queue }.to i .mark := by
  obtain ⟨m, hafter, hq, hfirst⟩ := h.queue.alone hquiet hdue
  refine ⟨m, _, hq, iterate_until (g := (coreStep info · i)) (p := fun queue => { s with queue := queue })
    (q := fun queue => { s with queue := queue }.to i .mark) (P := fun queue => queue.due i = .after)
    (fun queue hgo => ?_) (fun queue hstop => ?_) (by simp [hdue]) hafter hfirst⟩
  · simp only [coreStep, hstage, hgo, if_false]
  · simp only [coreStep, hstage, hstop, if_true]

theorem SmpInv.iterate (h : SmpInv info s) (i : Fin n) (m : Nat) : SmpInv info ((coreStep info · i)^[m] s) := by
  induction m with
  | zero => exact h
  | succ m ih =>
      rw [Function.iterate_succ_apply']
      exact ih.step i

/-- Alone, a CPU comes to the count, and does not touch it on the way. -/
theorem load_alone (h : SmpInv info s) (hquiet : s.Quiet) (hbegin : Begins s i) :
    ∃ m, ((coreStep info · i)^[m] s).stage i = .load ∧ ((coreStep info · i)^[m] s).Quiet ∧
      ((coreStep info · i)^[m] s).cpusRunning = s.cpusRunning := by
  obtain ⟨m₁, gdt, hgdt, h₁⟩ := tss_alone h hquiet.1 hbegin
  have hinv := h.iterate i m₁
  -- the two steps that make the thread and look at its flag
  obtain ⟨u, hu, hustage, huq, hucount⟩ : ∃ u, (coreStep info · i)^[m₁ + 2] s = u ∧ u.stage i = .enqueue ∧
      u.Quiet ∧ u.cpusRunning = s.cpusRunning := by
    refine ⟨_, rfl, ?_, ?_, ?_⟩
    all_goals
      rw [Function.iterate_succ_apply', Function.iterate_succ_apply', h₁]
      simp only [coreStep, Smp.to, Function.update_self, Bool.false_eq_true, if_false]
    exact ⟨hgdt, hquiet.2⟩
  have huinv : SmpInv info u := hu ▸ h.iterate i (m₁ + 2)
  have hudue : u.queue.due i = .before := by
    have hsame : u.queue.due i = s.queue.due i := by
      rw [← hu, Function.iterate_succ_apply', Function.iterate_succ_apply', h₁]
      simp only [coreStep, Smp.to, Function.update_self, Bool.false_eq_true, if_false]
    have := (h.cpu i).enqueue
    rw [hbegin.1] at this
    exact hsame.trans this
  obtain ⟨m₂, queue, hqueue, h₂⟩ := enqueue_alone huinv huq.2 hustage hudue
  refine ⟨1 + (m₂ + (m₁ + 2)), ?_, ?_, ?_⟩
  all_goals
    rw [Function.iterate_add_apply, Function.iterate_add_apply, hu, h₂, Function.iterate_one]
    simp only [coreStep, Smp.to, Function.update_self]
  · exact ⟨huq.1, hqueue⟩
  · exact hucount

/-- The CPUs of `l` take steps, in some order. -/
def Turns (info : SmpInfo n) (l : List (Fin n)) (s u : Smp n) : Prop :=
  ∃ schedule : List (Fin n), (∀ i ∈ schedule, i ∈ l) ∧ schedule.foldl (coreStep info) s = u

theorem Turns.refl (l : List (Fin n)) (s : Smp n) : Turns info l s s := ⟨[], fun _ h => (by cases h), rfl⟩

theorem Turns.trans {l₁ l₂ : List (Fin n)} {t : Smp n} (h₁ : Turns info l₁ s t) (h₂ : Turns info l₂ t u) :
    Turns info (l₁ ++ l₂) s u := by
  obtain ⟨w₁, hw₁, rfl⟩ := h₁
  obtain ⟨w₂, hw₂, rfl⟩ := h₂
  refine ⟨w₁ ++ w₂, fun i hi => ?_, List.foldl_append ..⟩
  rcases List.mem_append.mp hi with hi | hi
  · exact List.mem_append_left _ (hw₁ i hi)
  · exact List.mem_append_right _ (hw₂ i hi)

theorem Turns.iterate (s : Smp n) (i : Fin n) (m : Nat) : Turns info [i] s ((coreStep info · i)^[m] s) := by
  refine ⟨List.replicate m i, fun j hj => List.mem_singleton.mpr (List.eq_of_mem_replicate hj), ?_⟩
  induction m generalizing s with
  | zero => rfl
  | succ m ih => exact ih (coreStep info s i)

theorem Turns.inv {l : List (Fin n)} (h : Turns info l s u) (hinv : SmpInv info s) : SmpInv info u := by
  obtain ⟨schedule, -, rfl⟩ := h
  induction schedule generalizing s with
  | nil => exact hinv
  | cons i schedule ih => exact ih (hinv.step i)

/-- The others stay where they are. -/
theorem Turns.other {l : List (Fin n)} (h : Turns info l s u) (hi : i ∉ l) :
    u.stage i = s.stage i ∧ u.gdt.due i = s.gdt.due i := by
  obtain ⟨schedule, hmem, rfl⟩ := h
  induction schedule generalizing s with
  | nil => exact ⟨rfl, rfl⟩
  | cons j schedule ih =>
      obtain ⟨hstage, hgdt⟩ := ih (s := coreStep info s j) fun k hk => hmem k (List.mem_cons_of_mem j hk)
      have hne : i ≠ j := fun heq => hi (heq ▸ hmem j List.mem_cons_self)
      obtain ⟨hstage', hgdt', -⟩ := coreStep_other info s hne
      exact ⟨hstage.trans hstage', hgdt.trans hgdt'⟩

theorem Turns.begins {l : List (Fin n)} (h : Turns info l s u) (hi : i ∉ l) (hbegin : Begins s i) : Begins u i :=
  ⟨(h.other hi).1.trans hbegin.1, (h.other hi).2.trans hbegin.2⟩

theorem coreStep_load (h : s.stage i = .load) : coreStep info s i = s.to i (.store s.cpusRunning) := by
  simp only [coreStep, h]

theorem coreStep_store (info : SmpInfo n) {v : Nat} (h : s.stage i = .store v) :
    coreStep info s i = { s with cpusRunning := v + 1 }.to i .done := by
  simp only [coreStep, h]

/-- Alone, a CPU reads the count. -/
theorem store_alone (h : SmpInv info s) (hquiet : s.Quiet) (hbegin : Begins s i) :
    ∃ m, ((coreStep info · i)^[m] s).stage i = .store s.cpusRunning ∧ ((coreStep info · i)^[m] s).Quiet ∧
      ((coreStep info · i)^[m] s).cpusRunning = s.cpusRunning := by
  obtain ⟨m, hload, hq, hcount⟩ := load_alone h hquiet hbegin
  refine ⟨m + 1, ?_, ?_, ?_⟩
  all_goals rw [Function.iterate_succ_apply', coreStep_load hload]
  · rw [← hcount]
    exact Function.update_self ..
  · exact hq
  · exact hcount

/-- Alone, a CPU comes through `core_init` and counts itself. -/
theorem count_alone (h : SmpInv info s) (hquiet : s.Quiet) (hbegin : Begins s i) :
    ∃ m, (∀ k ≤ m, ((coreStep info · i)^[k] s).stage i ≠ .done) ∧
      ((coreStep info · i)^[m + 1] s).stage i = .done ∧ ((coreStep info · i)^[m + 1] s).Quiet ∧
      ((coreStep info · i)^[m + 1] s).cpusRunning = s.cpusRunning + 1 := by
  obtain ⟨m, hstore, hq, hcount⟩ := store_alone h hquiet hbegin
  have hlast : (coreStep info · i)^[m + 1] s =
      { (coreStep info · i)^[m] s with cpusRunning := s.cpusRunning + 1 }.to i .done := by
    rw [Function.iterate_succ_apply', coreStep_store info hstore]
  refine ⟨m, ?_, ?_, ?_, ?_⟩
  · intro k hk hdone
    have hstays : ∀ d, ((coreStep info · i)^[k + d] s).stage i = .done := by
      intro d
      induction d with
      | zero => exact hdone
      | succ d ih =>
          rw [← Nat.add_assoc, Function.iterate_succ_apply']
          exact done_stays _ ih
    have hm := hstays (m - k)
    rw [Nat.add_sub_cancel' hk, hstore] at hm
    cases hm
  all_goals rw [hlast]
  · exact Function.update_self ..
  · exact hq
  · rfl

/-- CPUs that go one after the other are all counted. -/
theorem counts_in_turn (l : List (Fin n)) (hnd : l.Nodup) (h : SmpInv info s) (hquiet : s.Quiet)
    (hbegin : ∀ i ∈ l, Begins s i) : ∃ u, Turns info l s u ∧ (∀ i ∈ l, u.stage i = .done) ∧ u.Quiet ∧
      u.cpusRunning = s.cpusRunning + l.length := by
  induction l generalizing s with
  | nil => exact ⟨s, Turns.refl [] s, fun i hi => (by cases hi), hquiet, rfl⟩
  | cons j l ih =>
      obtain ⟨hj, hnd⟩ := List.nodup_cons.mp hnd
      obtain ⟨m, -, hdone, hq, hcount⟩ := count_alone h hquiet (hbegin j List.mem_cons_self)
      have hturns : Turns info [j] s _ := Turns.iterate s j (m + 1)
      obtain ⟨u, hu, hall, huq, hucount⟩ := ih hnd (hturns.inv h) hq fun i hi =>
        hturns.begins (fun h => hj (List.mem_singleton.mp h ▸ hi)) (hbegin i (List.mem_cons_of_mem j hi))
      refine ⟨u, hturns.trans hu, fun i hi => ?_, huq, ?_⟩
      · rcases List.mem_cons.mp hi with rfl | hi
        · rw [(hu.other hj).1, hdone]
        · exact hall i hi
      · rw [hucount, hcount, List.length_cons]
        omega

/-- A CPU that writes the count late undoes what the CPUs before it have counted. -/
theorem counts_late {k : Fin n} {v : Nat} {l₁ l₂ : List (Fin n)} (hnd : (l₁ ++ k :: l₂).Nodup) (h : SmpInv info s)
    (hquiet : s.Quiet) (hstore : s.stage k = .store v) (hbegin : ∀ i ∈ l₁ ++ l₂, Begins s i) :
    ∃ u, Turns info (l₁ ++ k :: l₂) s u ∧ (∀ i ∈ l₁ ++ k :: l₂, u.stage i = .done) ∧
      u.cpusRunning = v + 1 + l₂.length := by
  obtain ⟨hnd₁, hnd₂, hapart⟩ := List.nodup_append'.mp hnd
  obtain ⟨hk₂, hnd₂⟩ := List.nodup_cons.mp hnd₂
  have hk₁ : k ∉ l₁ := fun hk => hapart hk List.mem_cons_self
  obtain ⟨t, ht, htdone, htq, -⟩ := counts_in_turn l₁ hnd₁ h hquiet fun i hi => hbegin i (List.mem_append_left _ hi)
  have hstep : Turns info [k] t ({ t with cpusRunning := v + 1 }.to k .done) := by
    rw [← coreStep_store info ((ht.other hk₁).1.trans hstore)]
    exact Turns.iterate t k 1
  obtain ⟨u, hu, hudone, -, hucount⟩ := counts_in_turn (s := { t with cpusRunning := v + 1 }.to k .done) l₂ hnd₂
    (hstep.inv (ht.inv h)) htq fun i hi => by
      have hi₁ : i ∉ l₁ := fun hi' => hapart hi' (List.mem_cons_of_mem k hi)
      have hik : i ∉ [k] := fun h => hk₂ (List.mem_singleton.mp h ▸ hi)
      exact hstep.begins hik (ht.begins hi₁ (hbegin i (List.mem_append_right _ hi)))
  refine ⟨u, ht.trans (hstep.trans hu), fun i hi => ?_, hucount⟩
  by_cases hi₂ : i ∈ l₂
  · exact hudone i hi₂
  · rw [(hu.other hi₂).1]
    by_cases hik : i = k
    · subst hik
      exact Function.update_self ..
    · have hi₁ : i ∈ l₁ := by simpa [hik, hi₂] using hi
      rw [(hstep.other (by simpa using hik)).1]
      exact htdone i hi₁

section Values
variable {bsp : Fin n}

/-- The states of the boot. -/
def Reached (info : SmpInfo n) (bsp : Fin n) (s : SmpInit n) : Prop := ∃ schedule, smpInitRun info bsp schedule = s

theorem Reached.step {s : SmpInit n} (h : Reached info bsp s) (i : Fin n) : Reached info bsp (smpInitStep info bsp s i) := by
  obtain ⟨schedule, rfl⟩ := h
  exact ⟨schedule ++ [i], smpInitRun_append ..⟩

/-- CPUs that have been started take their steps. -/
theorem Reached.turns {l : List (Fin n)} {index : Nat} {returned : Bool} (h : Reached info bsp ⟨s, index, returned⟩)
    (hl : ∀ i ∈ l, i ≠ bsp ∧ i.val < index) (hturns : Turns info l s u) : Reached info bsp ⟨u, index, returned⟩ := by
  obtain ⟨schedule, hmem, rfl⟩ := hturns
  induction schedule generalizing s with
  | nil => exact h
  | cons i schedule ih =>
      obtain ⟨hne, hlt⟩ := hl i (hmem i List.mem_cons_self)
      refine ih ?_ fun j hj => hmem j (List.mem_cons_of_mem i hj)
      have hstep := h.step i
      rw [smpInitStep_started hne hlt] at hstep
      exact hstep

/-- `smp_init` starts the CPUs up to `b`, if it is not itself on the way. -/
theorem Reached.start {index : Nat} {returned : Bool} (h : Reached info bsp ⟨s, index, returned⟩) {b : Nat}
    (hle : index ≤ b) (hn : b ≤ n) (hbsp : bsp.val < index ∨ b ≤ bsp.val) : Reached info bsp ⟨s, b, returned⟩ := by
  induction b, hle using Nat.le_induction with
  | base => exact h
  | succ b hle ih =>
      have hb := ih (by omega) (by omega)
      have hstep := hb.step bsp
      rw [smpInitStep_start (s := ⟨s, b, returned⟩) (show b ≠ bsp.val by omega) (show b < n by omega)] at hstep
      exact hstep

theorem Reached.own {m : Nat} (h : Reached info bsp ⟨s, bsp.val, false⟩)
    (hm : ∀ k ≤ m, ((coreStep info · bsp)^[k] s).stage bsp ≠ .done) :
    Reached info bsp ⟨(coreStep info · bsp)^[m] s, bsp.val, false⟩ := by
  induction m with
  | zero => exact h
  | succ m ih =>
      have hstep := (ih fun k hk => hm k (Nat.le_succ_of_le hk)).step bsp
      have hnot := hm (m + 1) le_rfl
      rw [Function.iterate_succ_apply'] at hnot ⊢
      rw [smpInitStep_own rfl, if_neg hnot] at hstep
      exact hstep

/-- On its own entry, `smp_init` goes through `core_init`, and then starts the CPUs that are left. -/
theorem Reached.through (h : Reached info bsp ⟨s, bsp.val, false⟩) (hinv : SmpInv info s) (hquiet : s.Quiet)
    (hbegin : Begins s bsp) : ∃ u, Reached info bsp ⟨u, n, false⟩ ∧ Turns info [bsp] s u ∧ u.stage bsp = .done ∧ u.Quiet ∧
      u.cpusRunning = s.cpusRunning + 1 := by
  obtain ⟨m, hnot, hdone, hq, hcount⟩ := count_alone hinv hquiet hbegin
  refine ⟨_, ?_, Turns.iterate s bsp (m + 1), hdone, hq, hcount⟩
  have hstep := (h.own hnot).step bsp
  rw [Function.iterate_succ_apply'] at hdone ⊢
  rw [smpInitStep_own rfl, if_pos hdone] at hstep
  exact hstep.start bsp.isLt le_rfl (.inl (Nat.lt_succ_self _))

/-- The CPUs other than two. -/
def others (bsp k : Fin n) : List (Fin n) := ((List.finRange n).erase bsp).erase k

theorem others_nodup (bsp k : Fin n) : (others bsp k).Nodup := ((List.nodup_finRange n).erase bsp).erase k

theorem mem_others {bsp k i : Fin n} : i ∈ others bsp k ↔ i ≠ k ∧ i ≠ bsp := by
  rw [others, ((List.nodup_finRange n).erase bsp).mem_erase_iff, (List.nodup_finRange n).mem_erase_iff]
  simp only [List.mem_finRange, and_true]

theorem length_others {bsp k : Fin n} (h : k ≠ bsp) : (others bsp k).length = n - 1 - 1 := by
  have hk : k ∈ (List.finRange n).erase bsp := (List.nodup_finRange n).mem_erase_iff.mpr ⟨h, List.mem_finRange k⟩
  rw [others, List.length_erase_of_mem hk, List.length_erase_of_mem (List.mem_finRange bsp), List.length_finRange]

/-- With one CPU late, of the `n - 2` others only `d` need to be in the count. -/
theorem Reached.late {k : Fin n} {v d : Nat} (h : Reached info bsp ⟨s, n, false⟩) (hinv : SmpInv info s)
    (hquiet : s.Quiet) (hbsp : s.stage bsp = .done) (hk : k ≠ bsp) (hstore : s.stage k = .store v)
    (hbegin : ∀ i, i ≠ k → i ≠ bsp → Begins s i) (hd : d + 2 ≤ n) :
    ∃ u, Reached info bsp ⟨u, n, false⟩ ∧ (∀ i, u.stage i = .done) ∧ u.cpusRunning = v + 1 + d := by
  let l₁ := (others bsp k).drop d
  let l₂ := (others bsp k).take d
  have hperm : List.Perm (l₁ ++ l₂) (others bsp k) :=
    List.perm_append_comm.trans (List.Perm.of_eq (List.take_append_drop d _))
  have hmem : ∀ i, i ∈ l₁ ++ k :: l₂ ↔ i ≠ bsp := by
    intro i
    rw [List.perm_middle.mem_iff, List.mem_cons, hperm.mem_iff, mem_others]
    by_cases hik : i = k
    · simp [hik, hk]
    · simp [hik]
  have hnd : (l₁ ++ k :: l₂).Nodup := by
    rw [List.perm_middle.nodup_iff, List.nodup_cons, hperm.nodup_iff, hperm.mem_iff, mem_others]
    exact ⟨fun hk => hk.1 rfl, others_nodup bsp k⟩
  obtain ⟨u, hturns, hdone, hcount⟩ := counts_late hnd hinv hquiet hstore fun i hi => by
    obtain ⟨hik, hib⟩ := mem_others.mp (hperm.mem_iff.mp hi)
    exact hbegin i hik hib
  refine ⟨u, h.turns (fun i hi => ⟨(hmem i).mp hi, i.isLt⟩) hturns, fun i => ?_, ?_⟩
  · by_cases hib : i = bsp
    · rw [hib, (hturns.other fun hb => (hmem bsp).mp hb rfl).1, hbsp]
    · exact hdone i ((hmem i).mpr hib)
  · rw [hcount, List.length_take, length_others hk, Nat.min_eq_left (by omega)]

theorem begins_start (i : Fin n) : Begins (smpStart : Smp n) i := ⟨rfl, rfl⟩

theorem quiet_start : (smpStart : Smp n).Quiet := ⟨fun _ hj => hj, fun _ hj => hj⟩

theorem reached_own (info : SmpInfo n) (bsp : Fin n) : Reached info bsp ⟨smpStart, bsp.val, false⟩ :=
  Reached.start ⟨[], rfl⟩ (Nat.zero_le _) bsp.isLt.le (.inr le_rfl)

/-- One after the other, all CPUs are counted. -/
theorem reached_all (info : SmpInfo n) (bsp : Fin n) :
    ∃ u, Reached info bsp ⟨u, n, false⟩ ∧ (∀ i, u.stage i = .done) ∧ u.cpusRunning = n := by
  obtain ⟨t, hreach, hturns, hbsp, hq, hcount⟩ :=
    (reached_own info bsp).through (smpInv_start info) quiet_start (begins_start bsp)
  have hmem : ∀ i, i ∈ (List.finRange n).erase bsp ↔ i ≠ bsp := fun i => by
    rw [(List.nodup_finRange n).mem_erase_iff, and_iff_left (List.mem_finRange i)]
  obtain ⟨u, hu, hdone, -, hucount⟩ := counts_in_turn _ ((List.nodup_finRange n).erase bsp)
    (hturns.inv (smpInv_start info)) hq fun i hi =>
      hturns.begins (fun h => (hmem i).mp hi (List.mem_singleton.mp h)) (begins_start i)
  refine ⟨u, hreach.turns (fun i hi => ⟨(hmem i).mp hi, i.isLt⟩) hu, fun i => ?_, ?_⟩
  · by_cases hib : i = bsp
    · rw [hib, (hu.other fun hb => (hmem bsp).mp hb rfl).1, hbsp]
    · exact hdone i ((hmem i).mpr hib)
  · have hpos := bsp.isLt
    rw [hucount, hcount, List.length_erase_of_mem (List.mem_finRange bsp), List.length_finRange]
    show 0 + 1 + (n - 1) = n
    omega

/-- A CPU that is started before `bsp` has begun can be late for all the others. -/
theorem reached_early (info : SmpInfo n) (bsp : Fin n) (hbsp : 0 < bsp.val) {d : Nat} (hd : d + 2 ≤ n) :
    ∃ u, Reached info bsp ⟨u, n, false⟩ ∧ (∀ i, u.stage i = .done) ∧ u.cpusRunning = 1 + d := by
  let k : Fin n := ⟨0, by omega⟩
  have hk : k ≠ bsp := fun h => hbsp.ne (congrArg Fin.val h)
  obtain ⟨m, hstore, hq, -⟩ := store_alone (smpInv_start info) quiet_start (begins_start k)
  have hturns : Turns info [k] smpStart _ := Turns.iterate smpStart k m
  have hreach := (reached_own info bsp).turns (fun i hi => by
    rw [List.mem_singleton.mp hi]
    exact ⟨hk, hbsp⟩) hturns
  have hother : ∀ i, i ≠ k → i ∉ [k] := fun i hi h => hi (List.mem_singleton.mp h)
  have hinv := hturns.inv (smpInv_start info)
  obtain ⟨u, hreach, hu, hdone, huq, -⟩ := hreach.through hinv hq (hturns.begins (hother bsp hk.symm) (begins_start bsp))
  have hnot : ∀ i, i ≠ bsp → i ∉ [bsp] := fun i hi h => hi (List.mem_singleton.mp h)
  obtain ⟨w, hw, hall, hcount⟩ := hreach.late (hu.inv hinv) huq hdone hk ((hu.other (hnot k hk)).1.trans hstore)
    (fun i hik hib => hu.begins (hnot i hib) (hturns.begins (hother i hik) (begins_start i))) hd
  exact ⟨w, hw, hall, hcount⟩

/-- A CPU that is started after `bsp` can be late for all the others but `bsp`. -/
theorem reached_late (info : SmpInfo n) (bsp : Fin n) (hbsp : bsp.val = 0) {d : Nat} (hd : d + 2 ≤ n) :
    ∃ u, Reached info bsp ⟨u, n, false⟩ ∧ (∀ i, u.stage i = .done) ∧ u.cpusRunning = 2 + d := by
  let k : Fin n := ⟨1, by omega⟩
  have hk : k ≠ bsp := fun h => one_ne_zero ((congrArg Fin.val h).trans hbsp)
  obtain ⟨t, hreach, hturns, hdone, hq, hone⟩ :=
    (reached_own info bsp).through (smpInv_start info) quiet_start (begins_start bsp)
  have hnot : ∀ i, i ≠ bsp → i ∉ [bsp] := fun i hi h => hi (List.mem_singleton.mp h)
  have hinv := hturns.inv (smpInv_start info)
  obtain ⟨m, hstore, hmq, -⟩ := store_alone hinv hq (hturns.begins (hnot k hk) (begins_start k))
  have hu : Turns info [k] t _ := Turns.iterate t k m
  have hother : ∀ i, i ≠ k → i ∉ [k] := fun i hi h => hi (List.mem_singleton.mp h)
  have hreach := hreach.turns (fun i hi => by
    rw [List.mem_singleton.mp hi]
    exact ⟨hk, k.isLt⟩) hu
  obtain ⟨w, hw, hall, hcount⟩ := hreach.late (hu.inv hinv) hmq ((hu.other (hother bsp hk.symm)).1.trans hdone) hk hstore
    (fun i hik hib => hu.begins (hother i hik) (hturns.begins (hnot i hib) (begins_start i))) hd
  refine ⟨w, hw, hall, ?_⟩
  rw [hcount, hone]
  rfl

theorem coreStep_done (h : (coreStep info s i).stage i = .done) :
    s.stage i = .done ∨ ∃ v, s.stage i = .store v ∧ (coreStep info s i).cpusRunning = v + 1 := by
  unfold coreStep at h ⊢
  cases hstage : s.stage i with
  | tss =>
      simp only [hstage] at h
      split at h
      · simp [Smp.to] at h
      · simp [hstage] at h
  | idle => simp [hstage, Smp.to] at h
  | check =>
      simp only [hstage] at h
      split at h <;> simp [Smp.to] at h
  | enqueue =>
      simp only [hstage] at h
      split at h
      · simp [Smp.to] at h
      · simp [hstage] at h
  | mark => simp [hstage, Smp.to] at h
  | load => simp [hstage, Smp.to] at h
  | store v => exact .inr ⟨v, rfl, rfl⟩
  | done => exact .inl rfl

/-- From a count of at least `m` on, the CPUs that are not in `l` raise it above `m` before they are through. -/
structure Above (m : Nat) (l : List (Fin n)) (s : Smp n) : Prop where
  count : m ≤ s.cpusRunning
  stores : ∀ i v, s.stage i = .store v → m ≤ v
  done : ∀ i, i ∉ l → s.stage i = .done → m < s.cpusRunning

theorem Above.step {m : Nat} {l : List (Fin n)} (h : Above m l s) (i : Fin n) : Above m l (coreStep info s i) := by
  obtain ⟨hcount, hread⟩ := coreStep_count info s i
  have hmono : s.cpusRunning = (coreStep info s i).cpusRunning ∨ m < (coreStep info s i).cpusRunning := by
    rcases hcount with hsame | ⟨v, hv, hnew⟩
    · exact .inl hsame.symm
    · rw [hnew]
      exact .inr (Nat.lt_succ_of_le (h.stores i v hv))
  refine ⟨?_, ?_, ?_⟩
  · exact hmono.elim (fun hsame => h.count.trans hsame.le) le_of_lt
  · intro j v hj
    by_cases hji : j = i
    · subst hji
      rw [(hread v hj).2]
      exact h.count
    · rw [(coreStep_other info s hji).1] at hj
      exact h.stores j v hj
  · intro j hjl hj
    refine hmono.elim (fun hsame => hsame ▸ ?_) id
    by_cases hji : j = i
    · subst hji
      rcases coreStep_done hj with hdone | ⟨v, hv, hnew⟩
      · exact h.done j hjl hdone
      · rw [hsame, hnew]
        exact Nat.lt_succ_of_le (h.stores j v hv)
    · rw [(coreStep_other info s hji).1] at hj
      exact h.done j hjl hj

theorem above_start : Above 0 [] (smpStart : Smp n) :=
  ⟨le_rfl, fun _ _ _ => Nat.zero_le _, fun _ _ h => by cases h⟩

theorem above_run (info : SmpInfo n) (bsp : Fin n) (schedule : List (Fin n)) :
    Above 0 [] (smpInitRun info bsp schedule).smp :=
  smpInitRun_induct above_start (fun _ i h => h.step i) bsp schedule

/-- If `bsp` is the first CPU of the list, it is through before any other has begun. -/
structure BspFirst (bsp : Fin n) (s : SmpInit n) : Prop where
  before : s.index = 0 → s.smp.stage bsp ≠ .done ∧ (∀ i, i ≠ bsp → s.smp.stage i = .tss)
  after : 0 < s.index → Above 1 [bsp] s.smp

theorem BspFirst.step {s : SmpInit n} (hzero : bsp.val = 0) (habove : Above 0 [] s.smp) (h : BspFirst bsp s) (i : Fin n) :
    BspFirst bsp (smpInitStep info bsp s i) := by
  rcases smpInitStep_cases bsp s i with ⟨rfl, hindex⟩ | ⟨rfl, hindex, hlt⟩ | ⟨rfl, hge⟩ | ⟨hi, hlt⟩ | ⟨hi, hge⟩
  · rw [smpInitStep_own hindex]
    obtain ⟨-, hothers⟩ := h.before (hindex.trans hzero)
    have hsame : ∀ j, j ≠ i → (coreStep info s.smp i).stage j = .tss := fun j hj =>
      (coreStep_other info s.smp hj).1.trans (hothers j hj)
    by_cases hdone : (coreStep info s.smp i).stage i = .done
    · rw [if_pos hdone]
      refine ⟨fun h => (by cases h), fun _ => ⟨(habove.step i).done i (by simp) hdone, ?_, ?_⟩⟩
      · intro j v hj
        by_cases hji : j = i
        · rw [hji, hdone] at hj
          cases hj
        · rw [hsame j hji] at hj
          cases hj
      · intro j hji hj
        rw [hsame j fun h => hji (List.mem_singleton.mpr h)] at hj
        cases hj
    · rw [if_neg hdone]
      exact ⟨fun _ => ⟨hdone, hsame⟩, fun hpos => absurd (hindex.trans hzero) hpos.ne'⟩
  · rw [smpInitStep_start hindex hlt]
    exact ⟨fun h0 => (by cases h0), fun _ => h.after (by omega)⟩
  · rw [smpInitStep_wait hge]
    exact ⟨h.before, h.after⟩
  · rw [smpInitStep_started hi hlt]
    exact ⟨fun h0 => absurd h0 (Nat.zero_lt_of_lt hlt).ne', fun hpos => (h.after hpos).step i⟩
  · rw [smpInitStep_parked hi hge]
    exact h

theorem bspFirst_run (info : SmpInfo n) (hzero : bsp.val = 0) (schedule : List (Fin n)) :
    BspFirst bsp (smpInitRun info bsp schedule) := by
  induction schedule using List.reverseRecOn with
  | nil => exact ⟨fun _ => ⟨fun h => (by cases h), fun _ _ => rfl⟩, fun h => by cases h⟩
  | append_singleton schedule i ih =>
      rw [smpInitRun_append]
      exact ih.step hzero (above_run info bsp schedule) i

/-- Once all CPUs are through, nothing changes the count. -/
theorem count_stays {schedule : List (Fin n)} (hdone : ∀ i, (smpInitRun info bsp schedule).smp.stage i = .done)
    (more : List (Fin n)) : (smpInitRun info bsp (schedule ++ more)).smp = (smpInitRun info bsp schedule).smp := by
  induction more using List.reverseRecOn with
  | nil => rw [List.append_nil]
  | append_singleton more i ih =>
      rw [← List.append_assoc, smpInitRun_append]
      exact (smpInitStep_done (fun j => by rw [ih, hdone j]) i).trans ih

/-- The counts with which all CPUs can be through. -/
theorem reached_count (info : SmpInfo n) (bsp : Fin n) {v : Nat} (hmin : (if bsp.val = 0 then min 2 n else 1) ≤ v)
    (hmax : v ≤ n) : ∃ u, Reached info bsp ⟨u, n, false⟩ ∧ (∀ i, u.stage i = .done) ∧ u.cpusRunning = v := by
  rcases hmax.eq_or_lt with rfl | hlt
  · exact reached_all info bsp
  · by_cases hzero : bsp.val = 0
    · rw [if_pos hzero] at hmin
      obtain ⟨u, hu, hdone, hcount⟩ := reached_late info bsp hzero (show v - 2 + 2 ≤ n by omega)
      exact ⟨u, hu, hdone, by omega⟩
    · rw [if_neg hzero] at hmin
      obtain ⟨u, hu, hdone, hcount⟩ := reached_early info bsp (Nat.pos_of_ne_zero hzero) (show v - 1 + 2 ≤ n by omega)
      exact ⟨u, hu, hdone, by omega⟩

theorem count_min (info : SmpInfo n) {bsp : Fin n} {schedule : List (Fin n)}
    (hdone : ∀ i, (smpInitRun info bsp schedule).smp.stage i = .done) :
    (if bsp.val = 0 then min 2 n else 1) ≤ (smpInitRun info bsp schedule).smp.cpusRunning := by
  have hone := (above_run info bsp schedule).done bsp (by simp) (hdone bsp)
  split
  · rename_i hzero
    have hfirst := bspFirst_run info hzero schedule
    have hpos : 0 < (smpInitRun info bsp schedule).index :=
      Nat.pos_of_ne_zero fun h0 => (hfirst.before h0).1 (hdone bsp)
    rcases Nat.lt_or_ge 1 n with hn | hn
    · let k : Fin n := ⟨1, hn⟩
      have hk : k ∉ [bsp] := fun h => one_ne_zero ((congrArg Fin.val (List.mem_singleton.mp h)).trans hzero)
      exact (min_le_left 2 n).trans ((hfirst.after hpos).done k hk (hdone k))
    · exact (min_le_right 2 n).trans (hn.trans hone)
  · exact hone

/-- The increment of `cpus_running` is not atomic: when every CPU is through `core_init`, the count stays at a number
that can be any from one to the number of CPUs, or from two on if the CPU that runs `smp_init` is the first one,
and `smp_init` returns only if that number is the number of CPUs. -/
theorem cpus_running_values (info : SmpInfo n) (bsp : Fin n) (v : Nat) :
    (∃ schedule, (∀ i, (smpInitRun info bsp schedule).smp.stage i = .done) ∧
      ∀ more, (smpInitRun info bsp (schedule ++ more)).smp.cpusRunning = v ∧
        ((smpInitRun info bsp (schedule ++ more)).returned = true → v = n)) ↔
    (if bsp.val = 0 then min 2 n else 1) ≤ v ∧ v ≤ n := by
  constructor
  · rintro ⟨schedule, hdone, hmore⟩
    have hv := (hmore []).1
    rw [List.append_nil] at hv
    rw [← hv]
    refine ⟨count_min info hdone, ?_⟩
    exact (smpInv_run info bsp schedule).counted.trans ((Finset.card_le_univ _).trans_eq (Fintype.card_fin n))
  · rintro ⟨hmin, hmax⟩
    obtain ⟨u, ⟨schedule, hrun⟩, hdone, hcount⟩ := reached_count info bsp hmin hmax
    have hdone : ∀ i, (smpInitRun info bsp schedule).smp.stage i = .done := by
      rw [hrun]
      exact hdone
    have hstay : ∀ more, (smpInitRun info bsp (schedule ++ more)).smp.cpusRunning = v := by
      intro more
      rw [count_stays hdone, hrun]
      exact hcount
    exact ⟨schedule, hdone, fun more => ⟨hstay more, fun hr => (hstay more).symm.trans (returned_count info bsp _ hr)⟩⟩

end Values

end Count

end Flan.Sys
