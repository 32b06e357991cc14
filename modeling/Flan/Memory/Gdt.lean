import Flan.Lib.Code
import Flan.Lib.X64
import Flan.Sys.Spinlock

/-! The descriptor table of `memory/gdt/gdt.c`, which all CPUs share. Each CPU in turn writes the
address of its task state segment over the last two entries and loads its task register from them;
`ltr` marks the descriptor as busy and refuses one that is. -/
namespace Flan.Memory
open Flan.Lib Flan.Sys

/-! ### The source -/

/-- `gdt_entry_t`. -/
structure GdtEntry where
  limit : BitVec 16
  baselow16 : BitVec 16
  basemid8 : BitVec 8
  access : BitVec 8
  granularity : BitVec 8
  basehigh8 : BitVec 8
deriving DecidableEq

inductive GdtField where
  | limit
  | baselow16
  | basemid8
  | access
  | granularity
  | basehigh8

def GdtEntry.set (e v : GdtEntry) : GdtField → GdtEntry
  | .limit => { e with limit := v.limit }
  | .baselow16 => { e with baselow16 := v.baselow16 }
  | .basemid8 => { e with basemid8 := v.basemid8 }
  | .access => { e with access := v.access }
  | .granularity => { e with granularity := v.granularity }
  | .basehigh8 => { e with basehigh8 := v.basehigh8 }

/-- The table after `gdt_init`. -/
def gdtInit : Nat → GdtEntry
  | 1 => ⟨0xffff, 0, 0, 0x9a, 0, 0⟩
  | 2 => ⟨0xffff, 0, 0, 0x92, 0, 0⟩
  | 3 => ⟨0xffff, 0, 0, 0x9a, 0xcf, 0⟩
  | 4 => ⟨0xffff, 0, 0, 0x92, 0xcf, 0⟩
  | 5 => ⟨0, 0, 0, 0x9a, 0x20, 0⟩
  | 6 => ⟨0, 0, 0, 0x92, 0, 0⟩
  | 7 => ⟨0, 0, 0, 0xf2, 0, 0⟩
  | 8 => ⟨0, 0, 0, 0xfa, 0x20, 0⟩
  | 9 => ⟨104, 0, 0, 0x89, 0, 0⟩
  | _ => ⟨0, 0, 0, 0, 0, 0⟩

/-- What `gdt_load_tss` puts into `gdt[9]`. -/
def tssEntry (tss : BitVec 64) : GdtEntry where
  limit := 104
  baselow16 := tss.setWidth 16
  basemid8 := (tss >>> 16).setWidth 8
  basehigh8 := (tss >>> 24).setWidth 8
  access := 0x89
  granularity := 0

/-- What it puts into `gdt[10]`. -/
def tssUpper (tss : BitVec 64) : GdtEntry where
  limit := (tss >>> 32).setWidth 16
  baselow16 := (tss >>> 48).setWidth 16
  basemid8 := 0
  access := 0
  granularity := 0
  basehigh8 := 0

/-- The hidden part of a task register. -/
structure TaskRegister where
  base : BitVec 64
  limit : BitVec 20
deriving DecidableEq

/-- `ltr` on a descriptor of sixteen bytes: it has to be an available and present task state segment,
and the type field of its upper half is zero. -/
def ltr (e upper : GdtEntry) : Option TaskRegister :=
  if e.access &&& 0x9f = 0x89 ∧ upper.access &&& 0x1f = 0 then
    some ⟨upper.baselow16 ++ upper.limit ++ e.basehigh8 ++ e.basemid8 ++ e.baselow16,
      e.granularity.setWidth 4 ++ e.limit⟩
  else none

/-- The table, the task registers of the CPUs, and the CPUs whose `ltr` has faulted. -/
structure Gdt (n : Nat) where
  entries : Nat → GdtEntry
  tr : Fin n → Option TaskRegister
  faults : List (Fin n)

inductive GdtOp (n : Nat) where
  | store (k : Nat) (v : GdtEntry) (f : GdtField)
  | ltr (cpu : Fin n)

/-- An assignment of an entry is a store to each of its fields. -/
def assign {n : Nat} (k : Nat) (v : GdtEntry) : List (GdtOp n) :=
  [.store k v .limit, .store k v .baselow16, .store k v .basemid8, .store k v .access, .store k v .granularity,
    .store k v .basehigh8]

def Gdt.setField {n : Nat} (s : Gdt n) (k : Nat) (v : GdtEntry) (f : GdtField) : Gdt n :=
  { s with entries := Function.update s.entries k ((s.entries k).set v f) }

/-- `ltr 0x48` on a CPU. -/
def Gdt.loadTr {n : Nat} (s : Gdt n) (cpu : Fin n) : Gdt n :=
  match ltr (s.entries 9) (s.entries 10) with
  | some tr =>
      { s with
        entries := Function.update s.entries 9 { s.entries 9 with access := (s.entries 9).access ||| 2 }
        tr := Function.update s.tr cpu (some tr) }
  | none => { s with faults := s.faults ++ [cpu] }

def GdtOp.exec {n : Nat} (s : Gdt n) : GdtOp n → Gdt n × List (GdtOp n)
  | .store k v f => (s.setField k v f, [])
  | .ltr cpu => (s.loadTr cpu, [])

/-- `gdt_load_tss` between its acquisition of `gdt_lock` and the release. -/
def gdtLoadTss {n : Nat} (c : Fin n × BitVec 64) : List (GdtOp n) :=
  assign 9 (tssEntry c.2) ++ assign 10 (tssUpper c.2) ++ [.ltr c.1]

def gdtBody (n : Nat) : Critical (Gdt n) (Fin n × BitVec 64) (List (GdtOp n)) Unit := codeBody GdtOp.exec gdtLoadTss

/-! ### One call -/

section Alone
variable {n : Nat} {s t : Gdt n}

/-- The pieces of the address come together again. -/
theorem tss_base (tss : BitVec 64) : (tssUpper tss).baselow16 ++ (tssUpper tss).limit ++ (tssEntry tss).basehigh8 ++
    (tssEntry tss).basemid8 ++ (tssEntry tss).baselow16 = tss := by
  have h32 := setWidth_shift_append tss 32 16 16
  have h24 := setWidth_shift_append tss 24 32 8
  have h16 := setWidth_shift_append tss 16 40 8
  have h0 := setWidth_shift_append tss 0 48 16
  rw [BitVec.ushiftRight_zero, BitVec.setWidth_eq] at h0
  simp only [tssUpper, tssEntry]
  rw [h32, h24, h16, h0]

theorem ltr_tss (tss : BitVec 64) : ltr (tssEntry tss) (tssUpper tss) = some ⟨tss, 104⟩ := by
  have haccess : 0x89#8 &&& 0x9f = 0x89 := by decide
  have hupper : 0#8 &&& 0x1f = 0 := by decide
  have hlimit : (0#8).setWidth 4 ++ 104#16 = 104#20 := by decide
  rw [ltr, if_pos ⟨haccess, hupper⟩, tss_base]
  exact congrArg (fun limit => some (TaskRegister.mk tss limit)) hlimit

/-- What a call does: the task register of the CPU has the segment, and the other CPUs' registers and
the entries for code and data are as before. -/
structure LoadsTss (s : Gdt n) (c : Fin n × BitVec 64) (t : Gdt n) : Prop where
  tr : t.tr = Function.update s.tr c.1 (some ⟨c.2, 104⟩)
  faults : t.faults = s.faults
  entries : ∀ k < 9, t.entries k = s.entries k

theorem does_assign (s : Gdt n) (k : Nat) (v : GdtEntry) :
    Does GdtOp.exec s (assign k v) { s with entries := Function.update s.entries k v } := by
  have hset : ∀ f e, GdtOp.exec { s with entries := Function.update s.entries k e } (.store k v f) =
      ({ s with entries := Function.update s.entries k (e.set v f) }, []) := by
    intro f e
    simp only [GdtOp.exec, Gdt.setField, Function.update_self, Function.update_idem]
  have hfirst : GdtOp.exec s (.store k v .limit) =
      ({ s with entries := Function.update s.entries k ((s.entries k).set v .limit) }, []) := rfl
  exact (Does.single hfirst).cons <| (Does.single (hset _ _)).cons <| (Does.single (hset _ _)).cons <|
    (Does.single (hset _ _)).cons <| (Does.single (hset _ _)).cons <| Does.single (hset _ _)

theorem gdtBody_computes : (gdtBody n).Computes (fun _ => True) fun s c t _ => LoadsTss s c t := by
  intro s c _
  have h9 := does_assign s 9 (tssEntry c.2)
  have h10 := does_assign { s with entries := Function.update s.entries 9 (tssEntry c.2) } 10 (tssUpper c.2)
  refine ⟨_, (), ((h9.append h10).append (.single rfl)).returns _, trivial, ?_⟩
  have hltr : ltr (Function.update (Function.update s.entries 9 (tssEntry c.2)) 10 (tssUpper c.2) 9)
      (Function.update (Function.update s.entries 9 (tssEntry c.2)) 10 (tssUpper c.2) 10) = some ⟨c.2, 104⟩ := by
    rw [Function.update_of_ne (by decide), Function.update_self, Function.update_self, ltr_tss]
  simp only [Gdt.loadTr, hltr]
  refine ⟨rfl, rfl, fun k hk => ?_⟩
  simp only [Function.update_of_ne (by omega : k ≠ 9), Function.update_of_ne (by omega : k ≠ 10)]

end Alone

/-! ### Calls of several CPUs -/

section Smp
variable {n : Nat} {s t : Gdt n}

/-- What a step of a CPU's call leaves alone: the registers of the other CPUs and, unless it faults,
everything that is not in the last two entries. -/
structure Within (cpu : Fin n) (s t : Gdt n) : Prop where
  tr : ∀ i, i ≠ cpu → t.tr i = s.tr i
  faults : s.faults <+: t.faults
  entries : ∀ k < 9, t.entries k = s.entries k

theorem Within.refl (cpu : Fin n) (s : Gdt n) : Within cpu s s := ⟨fun _ _ => rfl, List.prefix_rfl, fun _ _ => rfl⟩

theorem Within.trans {cpu : Fin n} {u : Gdt n} (h : Within cpu s t) (h' : Within cpu t u) : Within cpu s u :=
  ⟨fun i hi => (h'.tr i hi).trans (h.tr i hi), h.faults.trans h'.faults,
    fun k hk => (h'.entries k hk).trans (h.entries k hk)⟩

/-- The operations that a call has. -/
def GdtOp.Of (cpu : Fin n) : GdtOp n → Prop
  | .store k _ _ => 9 ≤ k
  | .ltr i => i = cpu

theorem gdtLoadTss_of (c : Fin n × BitVec 64) : ∀ op ∈ gdtLoadTss c, op.Of c.1 := by
  have hassign : ∀ k v, 9 ≤ k → ∀ op ∈ assign k v, op.Of c.1 := by
    intro k v hk op hop
    simp only [assign, List.mem_cons, List.not_mem_nil, or_false] at hop
    rcases hop with rfl | rfl | rfl | rfl | rfl | rfl <;> exact hk
  simp only [gdtLoadTss, List.forall_mem_append, List.forall_mem_singleton]
  exact ⟨⟨hassign 9 _ (by decide), hassign 10 _ (by decide)⟩, rfl⟩

theorem exec_within {cpu : Fin n} {op : GdtOp n} (h : op.Of cpu) (s : Gdt n) : Within cpu s (op.exec s).1 := by
  cases op with
  | store k v f =>
      refine ⟨fun _ _ => rfl, List.prefix_rfl, fun j hj => ?_⟩
      have hk : 9 ≤ k := h
      exact Function.update_of_ne (by omega) ..
  | ltr i =>
      obtain rfl : i = cpu := h
      simp only [GdtOp.exec, Gdt.loadTr]
      split
      · exact ⟨fun j hj => Function.update_of_ne hj .., List.prefix_rfl, fun k hk => Function.update_of_ne (by omega) ..⟩
      · exact ⟨fun _ _ => rfl, List.prefix_append .., fun _ _ => rfl⟩

theorem exec_along {cpu : Fin n} (s : Gdt n) (op : GdtOp n) (h : op.Of cpu) :
    Within cpu s (op.exec s).1 ∧ ∀ o ∈ (op.exec s).2, o.Of cpu := by
  refine ⟨exec_within h s, fun o ho => ?_⟩
  cases op <;> cases ho

/-- The segment that a CPU has loaded last. -/
def lastTss (i : Fin n) : List (Fin n × (Fin n × BitVec 64) × Unit) → Option TaskRegister → Option TaskRegister
  | [], tr => tr
  | (_, c, _) :: log, tr => lastTss i log (if i = c.1 then some ⟨c.2, 104⟩ else tr)

theorem lastTss_own {log : List (Fin n × (Fin n × BitVec 64) × Unit)} {tss : Fin n → BitVec 64}
    (hcalls : ∀ e ∈ log, e.2.1 = (e.1, tss e.1)) {i : Fin n} (hi : i ∈ log.map Prod.fst) (tr : Option TaskRegister) :
    lastTss i log tr = some ⟨tss i, 104⟩ := by
  have hkeep : ∀ {log : List (Fin n × (Fin n × BitVec 64) × Unit)}, (∀ e ∈ log, e.2.1 = (e.1, tss e.1)) →
      lastTss i log (some ⟨tss i, 104⟩) = some ⟨tss i, 104⟩ := by
    intro log hcalls
    induction log with
    | nil => rfl
    | cons e log ih =>
        obtain ⟨he, hrest⟩ := List.forall_mem_cons.mp hcalls
        rw [lastTss, he]
        by_cases hie : i = e.1
        · rw [if_pos hie, ← hie]
          exact ih hrest
        · rw [if_neg hie]
          exact ih hrest
  induction log generalizing tr with
  | nil => cases hi
  | cons e log ih =>
      obtain ⟨he, hrest⟩ := List.forall_mem_cons.mp hcalls
      rw [lastTss, he]
      by_cases hie : i = e.1
      · rw [if_pos hie, ← hie]
        exact hkeep hrest
      · rw [if_neg hie]
        exact ih hrest ((List.mem_cons.mp hi).resolve_left hie) tr

theorem replays_loadsTss {log : List (Fin n × (Fin n × BitVec 64) × Unit)}
    (h : Replays (fun s c t _ => LoadsTss s c t) s log t) :
    t.faults = s.faults ∧ (∀ k < 9, t.entries k = s.entries k) ∧ ∀ i, t.tr i = lastTss i log (s.tr i) := by
  induction log generalizing s with
  | nil =>
      obtain rfl : s = t := h
      exact ⟨rfl, fun _ _ => rfl, fun _ => rfl⟩
  | cons e log ih =>
      obtain ⟨u, hu, hrest⟩ := h
      obtain ⟨hfaults, hentries, htr⟩ := ih hrest
      refine ⟨hfaults.trans hu.faults, fun k hk => (hentries k hk).trans (hu.entries k hk), fun i => ?_⟩
      rw [htr, hu.tr, lastTss, Function.update_apply]

/-- A turn of the CPUs, each of which loads its own task register. -/
def ownTurn : Turn (Fin n) (BitVec 64) → Turn (Fin n) (Fin n × BitVec 64)
  | .call i tss => .call i (i, tss)
  | .run i => .run i

/-- The CPUs have made the turns, in this order, after `gdt_init`. -/
def tssRun (turns : List (Turn (Fin n) (BitVec 64))) :
    Locked (Fin n) (Gdt n) Nat (Fin n × BitVec 64) (List (GdtOp n)) Unit Nat :=
  (turns.map ownTurn).foldl (spinlocked (gdtBody n)).next ((spinlocked (gdtBody n)).start ⟨gdtInit, fun _ => none, []⟩)

theorem tssRun_own (turns : List (Turn (Fin n) (BitVec 64))) (i : Fin n) :
    ((tssRun turns).phase i).Calls fun c => c.1 = i := by
  refine Guard.calls_run (P := fun (i : Fin n) (c : Fin n × BitVec 64) => c.1 = i) ?_ ?_ _ ?_ i
  · intro i c w c' w' hc h
    rw [spinlocked_again _ c w c' w' h]
    exact hc
  · exact fun _ => trivial
  · intro i c hc
    obtain ⟨a, -, ha⟩ := List.mem_map.mp hc
    cases a with
    | call j tss =>
        obtain ⟨rfl, rfl⟩ := Turn.call.inj ha
        rfl
    | run j => cases ha

/-- In every order of steps, no `ltr` faults, the entries for code and data stay those of `gdt_init`,
and each CPU that is not inside `gdt_load_tss` has the segment of its own last call. -/
theorem cpus_load_own_tss (turns : List (Turn (Fin n) (BitVec 64))) :
    (tssRun turns).shared.faults = [] ∧ (∀ k < 9, (tssRun turns).shared.entries k = gdtInit k) ∧
    ∀ i, ¬ ((tssRun turns).phase i).Holds → (tssRun turns).shared.tr i = lastTss i (tssRun turns).log none := by
  have hinv : (spinlocked (gdtBody n)).Inv (fun _ => True) (fun s c t _ => LoadsTss s c t) ⟨gdtInit, fun _ => none, []⟩
      (tssRun turns) := (Guard.inv_start _ trivial).run gdtBody_computes _
  have hown := tssRun_own turns
  generalize tssRun turns = s at hinv hown ⊢
  cases hinv with
  | free hlog _ _ _ =>
      obtain ⟨hfaults, hentries, htr⟩ := replays_loadsTss hlog
      exact ⟨hfaults, hentries, fun i _ => htr i⟩
  | @inside j c k t u r fuel hlog hR _ _ hphase hsteps hrun _ =>
      obtain ⟨hfaults, hentries, htr⟩ := replays_loadsTss hlog
      obtain ⟨hbefore, hops⟩ := steps_along (Within.refl c.1) (fun _ _ _ => Within.trans) exec_along hsteps
        (gdtLoadTss_of c)
      have hafter := run_along (Within.refl c.1) (fun _ _ _ => Within.trans) exec_along hrun hops
      obtain rfl : c.1 = j := by
        have := hown j
        rw [hphase] at this
        exact this
      refine ⟨?_, fun k hk => (hbefore.entries k hk).trans (hentries k hk), fun i hi => ?_⟩
      · have hnone := hafter.faults
        rw [hR.faults, hfaults] at hnone
        exact List.prefix_nil.mp hnone
      · have hne : i ≠ c.1 := by
          rintro rfl
          rw [hphase] at hi
          exact hi trivial
        rw [hbefore.tr i hne, htr]
  | @leaving j c t r hlog hR _ _ hphase _ =>
      obtain ⟨hfaults, hentries, htr⟩ := replays_loadsTss hlog
      obtain rfl : c.1 = j := by
        have := hown j
        rw [hphase] at this
        exact this
      refine ⟨hR.faults.trans hfaults, fun k hk => (hR.entries k hk).trans (hentries k hk), fun i hi => ?_⟩
      have hne : i ≠ c.1 := by
        rintro rfl
        rw [hphase] at hi
        exact hi trivial
      rw [hR.tr, Function.update_of_ne hne, htr]

end Smp

end Flan.Memory
