import Flan.Proc.Sched
import Flan.Lib.Runs

/-! The GS bases of the CPUs along interrupts, system calls and thread switches,
from `sys/idt/isr.asm`, `sys/syscalls/syscall_handler.asm` and `proc/sched.c`. -/
namespace Flan.Proc
open Flan.Lib

/-! ### The two bases of a CPU -/

/-- `MSR_GSBASE` and `MSR_KGSBASE`. -/
structure GsPair where
  gs : Nat
  kgs : Nat
  deriving DecidableEq

def GsPair.swapgs (g : GsPair) : GsPair := ⟨g.kgs, g.gs⟩

/-- The interrupt stub exchanges the bases, on its way in and on its way out, when
the saved `cs` is the one it takes for user code. -/
def stubSwap (cs : Nat) (g : GsPair) : GsPair := if cs = userCs then g.swapgs else g

/-- `sched_vector` sets the kernel base for the thread it switches to, and
`switch_to_thread` exchanges the two. -/
def switchGs (cs gsBase : Nat) (g : GsPair) : GsPair :=
  { g with kgs := if cs = userCs then gsBase else g.gs }.swapgs

def kernelCs : Nat := 0x28

/-- The `cs` of the frame that `sched_user_thread` builds. -/
def threadCs : Nat := 0x40 ||| 3

/-- What `core_init` writes to `MSR_STAR`. -/
def msrStar : Nat := ((0x30 ||| 3) <<< 48) ||| (0x28 <<< 32)

/-- The `cs` that `o64 sysret` loads. -/
def sysretCs : Nat := ((msrStar >>> 48) + 16) ||| 3

/-- The switch of the scheduler's model acts on the bases as said here. -/
theorem switchFrom_gs {n : Nat} (s : Sched n) (c : Fin n) (t : Nat) :
    (⟨((switchFrom s c t).1.cpus c).gsBase, ((switchFrom s c t).1.cpus c).kgsBase⟩ : GsPair) =
      switchGs (s.frames (s.thread t).state).cs (s.thread t).gsBase
        ⟨(s.cpus c).gsBase, (s.cpus c).kgsBase⟩ := by
  have hstate : ((s.modify (s.current c) fun r =>
      { r with running := false, lock := spinlockRelease r.lock }).thread t).state =
      (s.thread t).state := thread_field_modify Thread.state s _ t _ (fun _ => rfl)
  have hbase : ((s.modify (s.current c) fun r =>
      { r with running := false, lock := spinlockRelease r.lock }).thread t).gsBase =
      (s.thread t).gsBase := thread_field_modify Thread.gsBase s _ t _ (fun _ => rfl)
  simp only [switchFrom, switchToThread, modifyCpu_cpus, modify_cpus, thread_modifyCpu,
    modifyCpu_frames, modify_frames, hstate, hbase, if_true]
  rfl

/-! ### What a CPU executes -/

/-- The code a CPU is in: user code with its `cs`, a kernel thread's own code, a
system call of user code, or an interrupt handler above one of these. -/
inductive Ctx where
  | user (cs : Nat)
  | kernel
  | syscall
  | interrupt (below : Ctx)
  deriving DecidableEq

namespace Ctx

def cs : Ctx → Nat
  | .user cs => cs
  | _ => kernelCs

def isUser : Ctx → Bool
  | .user _ => true
  | _ => false

/-- It comes back to user code by `iretq`, and not by `sysret`. -/
def viaIret : Ctx → Bool
  | .user _ => true
  | .kernel => false
  | .syscall => false
  | .interrupt below => below.viaIret

/-- User code in it has a `cs` that the stub takes for kernel code. -/
def Unswapped : Ctx → Prop
  | .user cs => cs ≠ userCs
  | .kernel => True
  | .syscall => True
  | .interrupt below => below.Unswapped

theorem Unswapped.cs_ne {k : Ctx} (h : k.Unswapped) : k.cs ≠ userCs := by
  cases k with
  | user cs => exact h
  | kernel => decide
  | syscall => decide
  | interrupt below => exact (by decide : kernelCs ≠ userCs)

end Ctx

structure GsCpu where
  base : GsPair
  ctx : Ctx
  /-- The running thread; the boot code and idle loop are not saved. -/
  thread : Option Nat

/-- A thread that waits, with the code its frame returns to. -/
structure Waiting where
  ctx : Ctx
  gsBase : Nat

/-- The thread that `sched_user_thread` or `sched_kernel_thread` makes. -/
def newThread (user : Bool) : Waiting := ⟨if user then .user threadCs else .kernel, 0⟩

structure GsWorld (n : Nat) where
  cpu : Fin n → GsCpu
  waiting : Nat → Option Waiting

inductive GsStep (n : Nat) where
  /-- User code loads a selector into `gs`. -/
  | loadGs (c : Fin n) (base : Nat)
  | interrupt (c : Fin n)
  | iret (c : Fin n)
  | syscall (c : Fin n)
  | sysret (c : Fin n)
  /-- `sched_vector` finds a thread and switches to it. -/
  | switch (c : Fin n) (t : Nat)
  | create (t : Nat) (user : Bool)
  /-- `dequeue_and_die`. -/
  | die (c : Fin n)

namespace GsWorld
variable {n : Nat}

def modifyCpu (w : GsWorld n) (c : Fin n) (f : GsCpu → GsCpu) : GsWorld n :=
  { w with cpu := Function.update w.cpu c (f (w.cpu c)) }

/-- The threads that wait once the interrupted one has been saved. -/
def save (w : GsWorld n) (c : Fin n) (below : Ctx) : Nat → Option Waiting :=
  match (w.cpu c).thread with
  | some t => Function.update w.waiting t (some ⟨below, (w.cpu c).base.gs⟩)
  | none => w.waiting

def switchTo (w : GsWorld n) (c : Fin n) (t : Nat) : GsWorld n :=
  match (w.cpu c).ctx, w.waiting t with
  | .interrupt below, some next =>
      { cpu := Function.update w.cpu c
          ⟨switchGs next.ctx.cs next.gsBase (w.cpu c).base, next.ctx, some t⟩,
        waiting := Function.update (w.save c below) t none }
  | _, _ => w

def step (w : GsWorld n) : GsStep n → GsWorld n
  | .loadGs c base => w.modifyCpu c fun p => { p with base.gs := base }
  | .interrupt c => w.modifyCpu c fun p =>
      { p with base := stubSwap p.ctx.cs p.base, ctx := .interrupt p.ctx }
  | .iret c => w.modifyCpu c fun p =>
      match p.ctx with
      | .interrupt below => { p with base := stubSwap below.cs p.base, ctx := below }
      | _ => p
  | .syscall c => w.modifyCpu c fun p => { p with base := p.base.swapgs, ctx := .syscall }
  | .sysret c => w.modifyCpu c fun p => { p with base := p.base.swapgs, ctx := .user sysretCs }
  | .switch c t => w.switchTo c t
  | .create t user => { w with waiting := Function.update w.waiting t (some (newThread user)) }
  | .die c => w.modifyCpu c fun p => { p with ctx := .kernel, thread := none }

/-- What can happen. -/
def Allowed (w : GsWorld n) : GsStep n → Prop
  | .loadGs c _ => (w.cpu c).ctx.isUser = true
  | .interrupt _ => True
  | .iret c => ∃ below, (w.cpu c).ctx = .interrupt below
  | .syscall c => (w.cpu c).ctx.isUser = true
  | .sysret c => (w.cpu c).ctx = .syscall
  | .switch c t => (∃ below, (w.cpu c).ctx = .interrupt below) ∧ (w.waiting t).isSome
  | .create t _ => w.waiting t = none ∧ ∀ c, (w.cpu c).thread ≠ some t
  | .die c => (w.cpu c).ctx.isUser = false

/-- Every CPU is in its boot code, behind `set_gs_base`. -/
def boot (loc kgs : Fin n → Nat) : GsWorld n :=
  { cpu := fun c => ⟨⟨loc c, kgs c⟩, .kernel, none⟩
    waiting := fun _ => none }

/-- `this_cpu` is right wherever kernel code executes. -/
def LocalInKernel (loc : Fin n → Nat) (w : GsWorld n) : Prop :=
  ∀ c, (w.cpu c).ctx.isUser = false → (w.cpu c).base.gs = loc c

/-- An interrupt hits user code only while the active base is still the CPU's own. -/
def KeepsBase (loc : Fin n → Nat) (w : GsWorld n) : GsStep n → Prop
  | .interrupt c => (w.cpu c).ctx.isUser = true → (w.cpu c).base.gs = loc c
  | _ => True

/-! ### The invariant -/

structure CpuInv (loc : Nat) (p : GsCpu) : Prop where
  kernel : p.ctx.isUser = false → p.base.gs = loc
  user : p.ctx.viaIret = true → p.base.kgs = loc
  cs : p.ctx.Unswapped

structure Inv (loc : Fin n → Nat) (w : GsWorld n) : Prop where
  cpu : ∀ c, CpuInv (loc c) (w.cpu c)
  waiting : ∀ t th, w.waiting t = some th → th.ctx.Unswapped

section Steps
variable {loc : Fin n → Nat} {w : GsWorld n} {c : Fin n}

theorem Inv.modifyCpu (h : Inv loc w) {f : GsCpu → GsCpu} (hf : CpuInv (loc c) (f (w.cpu c))) :
    Inv loc (w.modifyCpu c f) := by
  refine ⟨fun d => ?_, h.waiting⟩
  by_cases hd : d = c
  · subst hd
    simp only [GsWorld.modifyCpu, Function.update_self]
    exact hf
  · simp only [GsWorld.modifyCpu, Function.update_of_ne hd]
    exact h.cpu d

/-- A switch from kernel code leaves the CPU's own base in both places. -/
theorem switchGs_eq {cs gsBase : Nat} {g : GsPair} (hcs : cs ≠ userCs) :
    switchGs cs gsBase g = ⟨g.gs, g.gs⟩ := by
  rw [switchGs, if_neg hcs]
  rfl

theorem stubSwap_eq {cs : Nat} {g : GsPair} (hcs : cs ≠ userCs) : stubSwap cs g = g := if_neg hcs

theorem Inv.save (h : Inv loc w) {below : Ctx} (hctx : (w.cpu c).ctx = .interrupt below) {t : Nat}
    {th : Waiting} (ht : w.save c below t = some th) : th.ctx.Unswapped := by
  have hcs := (h.cpu c).cs
  rw [hctx] at hcs
  rw [GsWorld.save] at ht
  cases hth : (w.cpu c).thread with
  | none =>
      rw [hth] at ht
      exact h.waiting t th ht
  | some u =>
      rw [hth] at ht
      by_cases htu : t = u
      · subst htu
        simp only [Function.update_self] at ht
        cases ht
        exact hcs
      · simp only [Function.update_of_ne htu] at ht
        exact h.waiting t th ht

theorem Inv.switchTo (h : Inv loc w) {t : Nat} : Inv loc (w.switchTo c t) := by
  rw [GsWorld.switchTo]
  split
  · rename_i below next hctx hnext
    have hgs : (w.cpu c).base.gs = loc c := (h.cpu c).kernel (by rw [hctx]; rfl)
    have hcs := h.waiting t next hnext
    constructor
    · intro d
      by_cases hd : d = c
      · subst hd
        simp only [Function.update_self, switchGs_eq hcs.cs_ne]
        exact ⟨fun _ => hgs, fun _ => hgs, hcs⟩
      · simp only [Function.update_of_ne hd]
        exact h.cpu d
    · intro u th hu
      by_cases hut : u = t
      · subst hut
        simp only [Function.update_self] at hu
        cases hu
      · simp only [Function.update_of_ne hut] at hu
        exact h.save hctx hu
  · exact h

theorem newThread_unswapped (user : Bool) : (newThread user).ctx.Unswapped := by
  cases user with
  | true => exact (by decide : threadCs ≠ userCs)
  | false => trivial

theorem Inv.step (h : Inv loc w) {a : GsStep n} (ha : w.Allowed a) (hk : KeepsBase loc w a) :
    Inv loc (w.step a) := by
  cases a with
  | loadGs c base =>
      rw [GsWorld.step]
      refine h.modifyCpu ⟨fun hno => ?_, (h.cpu c).user, (h.cpu c).cs⟩
      rw [show (w.cpu c).ctx.isUser = true from ha] at hno
      cases hno
  | interrupt c =>
      have hp := h.cpu c
      rw [GsWorld.step]
      refine h.modifyCpu ?_
      rw [stubSwap_eq hp.cs.cs_ne]
      refine ⟨fun _ => ?_, hp.user, hp.cs⟩
      cases hu : (w.cpu c).ctx.isUser with
      | true => exact hk hu
      | false => exact hp.kernel hu
  | iret c =>
      obtain ⟨below, hctx⟩ := ha
      have hp := h.cpu c
      have hcs : below.Unswapped := by
        have hall := hp.cs
        rw [hctx] at hall
        exact hall
      rw [GsWorld.step]
      refine h.modifyCpu ?_
      simp only [hctx]
      rw [stubSwap_eq hcs.cs_ne]
      refine ⟨fun _ => hp.kernel (by rw [hctx]; rfl), fun hvia => hp.user ?_, hcs⟩
      rw [hctx]
      exact hvia
  | syscall c =>
      have hvia : (w.cpu c).ctx.viaIret = true := by
        cases hctx : (w.cpu c).ctx with
        | user cs => rfl
        | _ =>
            rw [Allowed, hctx] at ha
            cases ha
      rw [GsWorld.step]
      exact h.modifyCpu ⟨fun _ => (h.cpu c).user hvia, Bool.noConfusion, trivial⟩
  | sysret c =>
      have hgs := (h.cpu c).kernel (by rw [show (w.cpu c).ctx = .syscall from ha]; rfl)
      rw [GsWorld.step]
      exact h.modifyCpu ⟨Bool.noConfusion, fun _ => hgs, (by decide : sysretCs ≠ userCs)⟩
  | switch c t => exact h.switchTo
  | create t user =>
      refine ⟨h.cpu, fun u th hu => ?_⟩
      by_cases hut : u = t
      · subst hut
        simp only [GsWorld.step, Function.update_self] at hu
        cases hu
        exact newThread_unswapped user
      · simp only [GsWorld.step, Function.update_of_ne hut] at hu
        exact h.waiting u th hu
  | die c =>
      rw [GsWorld.step]
      exact h.modifyCpu ⟨fun _ => (h.cpu c).kernel ha, Bool.noConfusion, trivial⟩

/-- An interrupt that finds another base runs its handler with it. -/
theorem Inv.keeps_of_local (h : Inv loc w) {a : GsStep n} (hnext : LocalInKernel loc (w.step a)) :
    KeepsBase loc w a := by
  cases a with
  | interrupt c =>
      intro _
      have hbase := hnext c
      simp only [GsWorld.step, GsWorld.modifyCpu, Function.update_self, stubSwap_eq (h.cpu c).cs.cs_ne] at hbase
      exact hbase rfl
  | _ => trivial

end Steps

theorem inv_boot (loc kgs : Fin n → Nat) : Inv loc (boot loc kgs) :=
  ⟨fun _ => ⟨fun _ => rfl, Bool.noConfusion, trivial⟩, fun _ _ h => nomatch h⟩

/-- Kernel code finds the CPU's own base in every state of a run exactly when no
interrupt hits user code that has another base. -/
theorem gs_local_iff_keeps_base (loc kgs : Fin n → Nat) {as : List (GsStep n)}
    (has : AllSteps GsWorld.step Allowed (boot loc kgs) as) :
    AllStates GsWorld.step (LocalInKernel loc) (boot loc kgs) as ↔
      AllSteps GsWorld.step (KeepsBase loc) (boot loc kgs) as := by
  refine allStates_iff_allSteps (fun w (h : Inv loc w) c => (h.cpu c).kernel) ?_ ?_ (inv_boot loc kgs) has
  · intro w a h ha hk
    exact h.step ha hk
  · intro w a h _ hnext
    exact h.keeps_of_local hnext

/-- One CPU with its local data at address 100. -/
def oneCpu : GsWorld 1 := boot (fun _ => 100) fun _ => 0

/-- The boot code is interrupted and the new user thread gets the CPU. -/
def enterUser : List (GsStep 1) :=
  [.create 1 true, .interrupt ⟨0, Nat.one_pos⟩, .switch ⟨0, Nat.one_pos⟩ 1]

/-- A thread that loads `gs` and then makes a system call. -/
theorem syscall_after_load_keeps_local :
    AllStates GsWorld.step (LocalInKernel fun _ => 100) oneCpu (enterUser ++ [.loadGs 0 7, .syscall 0]) := by
  refine (gs_local_iff_keeps_base (fun _ => 100) (fun _ => 0) ?_).mpr ?_
  · refine ⟨⟨rfl, ?_⟩, trivial, ⟨⟨_, rfl⟩, rfl⟩, rfl, rfl, trivial⟩
    intro _ h
    cases h
  · refine ⟨trivial, ?_, trivial, trivial, trivial, trivial⟩
    intro h
    cases h

def loadThenInterrupt : List (GsStep 1) :=
  enterUser ++ [.loadGs ⟨0, Nat.one_pos⟩ 7, .interrupt ⟨0, Nat.one_pos⟩]

/-- An interrupt after the load executes its handler with the base of user code. -/
theorem interrupt_after_load_loses_local :
    AllSteps GsWorld.step Allowed oneCpu loadThenInterrupt ∧
    ¬ LocalInKernel (fun _ => 100) (loadThenInterrupt.foldl GsWorld.step oneCpu) := by
  refine ⟨⟨⟨rfl, fun _ h => (nomatch h)⟩, trivial, ⟨⟨_, rfl⟩, rfl⟩, rfl, trivial, trivial⟩, ?_⟩
  intro h
  have hgs : 7 = 100 := h 0 rfl
  cases hgs

end GsWorld

end Flan.Proc
