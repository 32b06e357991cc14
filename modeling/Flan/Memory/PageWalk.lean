import Flan.Memory.VmmInit

/-! The walks of the processors' MMUs while `vmm_map_page` and `vmm_unmap_page`
change the tables. The calls exclude each other by `vmm_lock`; a walk takes no
lock and reads one entry at a time, between any two accesses of a call. -/
namespace Flan.Memory
open Flan.Lib

/-- Where the holder of `vmm_lock` is: at a table, with the shifts of the levels
that `get_next_level` has still to pass; before the store that links a new table;
or stopped by the `assert` on `pmm_calloc`. -/
inductive VmmAt where
  | descend (table : Nat) (shifts : List Nat)
  | link (table shift next : Nat) (shifts : List Nat)
  | halted

/-- The call sets the page of `virtual`: `vmm_map_page` or `vmm_unmap_page`. -/
def PageSet.op (c : PageSet) : VmmOp :=
  match c.mapped with
  | some (physical, flags) => .mapPage c.top physical c.virtual flags
  | none => .unmapPage c.top c.virtual

section Calls
variable {σ : Type} (F : FrameSource σ)

/-- `current_level[index] = value`. -/
def Vmm.store (s : Vmm σ) (table index value : Nat) : Vmm σ :=
  { s with mem := write64 s.mem (table + 8 * index) value }

def linkEntry (next : Nat) : Nat := next ||| ptePresent ||| pteWritable ||| pteUser

/-- One step of a call: a read of an entry, with the frame of `pmm_calloc` where
it is not present, or one store. The lock is released after that of the leaf. -/
def VmmAt.next (s : Vmm σ) (c : PageSet) : VmmAt → Vmm σ × Option VmmAt
  | .descend table [] => (s.store table (pmlIndex c.virtual 12) (leafOf c.mapped), none)
  | .descend table (shift :: shifts) =>
      let entry := read64 s.mem (table + 8 * pmlIndex c.virtual shift)
      if entry &&& 1 ≠ 0 then (s, some (.descend (entry &&& pteAddrMask) shifts))
      else
        let r := pmmCalloc F s 1
        if r.1 = 0 then (r.2, some .halted) else (r.2, some (.link table shift r.1 shifts))
  | .link table shift next shifts =>
      (s.store table (pmlIndex c.virtual shift) (linkEntry next), some (.descend next shifts))
  | .halted => (s, some .halted)

def VmmAt.entered (c : PageSet) : VmmAt := .descend c.top [39, 30, 21]

/-- The rest of a call if nothing comes between. -/
def descendRest (c : PageSet) : Vmm σ → (table : Nat) → (shifts : List Nat) → Option (Vmm σ)
  | s, table, [] => some (s.store table (pmlIndex c.virtual 12) (leafOf c.mapped))
  | s, table, shift :: shifts =>
      (getNextLevel F s table (pmlIndex c.virtual shift)).bind fun r => descendRest c r.2 r.1 shifts

def VmmAt.rest (s : Vmm σ) (c : PageSet) : VmmAt → Option (Vmm σ)
  | .descend table shifts => descendRest F c s table shifts
  | .link table shift next shifts =>
      descendRest F c (s.store table (pmlIndex c.virtual shift) (linkEntry next)) next shifts
  | .halted => none

end Calls

/-- The tables with their calls and one walk, for an address of the pagemap at
`top`. Walks change nothing, so one stands for all of them. -/
structure Paging (σ : Type) where
  vmm : Vmm σ
  busy : Option (PageSet × VmmAt)
  log : List PageSet
  top : Nat
  virtual : Nat
  walker : Walker Nat Slot Nat

inductive PagingEvent where
  | call (c : PageSet)
  | run
  | walk (top virtual : Nat)
  | read

section Machine
variable {σ : Type} {F : FrameSource σ} {s s' : Vmm σ} {c : PageSet} {here there : VmmAt}
  {lev lev' : Nat → Nat} {w w' : VmmRun σ} {p : Paging σ} {table shift next : Nat} {shifts : List Nat}

/-- A call that finds the lock taken spins. -/
def Paging.step (F : FrameSource σ) (p : Paging σ) : PagingEvent → Paging σ
  | .call c =>
      match p.busy with
      | some _ => p
      | none => { p with busy := some (c, .entered c) }
  | .run =>
      match p.busy with
      | none => p
      | some (c, here) =>
          match here.next F p.vmm c with
          | (s, some there) => { p with vmm := s, busy := some (c, there) }
          | (s, none) => { p with vmm := s, busy := none, log := c :: p.log }
  | .walk top virtual => { p with top, virtual, walker := .underway top (path virtual) }
  | .read => { p with walker := p.walker.read (child p.vmm.mem) (entry p.vmm.mem) 0 }

/-- No call and no walk is under way. -/
def Paging.start (w : VmmRun σ) : Paging σ := ⟨w.vmm, none, w.log, w.kernel, 0, .ended 0⟩

/-- `pmm_calloc` had no frame left. -/
def Paging.Halted (p : Paging σ) : Prop := ∃ c, p.busy = some (c, .halted)

def PagingEvent.On (w : VmmRun σ) : PagingEvent → Prop
  | .call c => c.op.On w
  | .walk top _ => top ∈ w.tops
  | _ => True

/-! ### A call alone -/

/-- Without interruption the steps are the function. -/
theorem VmmAt.rest_entered (h : VmmAt.rest F w.vmm c (.entered c) = some s) :
    c.op.exec F w = some { w with vmm := s, log := c :: w.log } := by
  obtain ⟨top, virtual, mapped⟩ := c
  simp only [VmmAt.entered, VmmAt.rest, descendRest, Option.bind_eq_some_iff] at h
  obtain ⟨r₁, h₁, r₂, h₂, r₃, h₃, hs⟩ := h
  have hdescent : pml1Of F w.vmm top virtual = some r₃ := by
    simp only [pml1Of, h₁, h₂, h₃, Option.bind_eq_bind, Option.bind_some]
  cases mapped with
  | none =>
      cases hs
      simp only [PageSet.op, VmmOp.exec, vmmUnmapPage, hdescent, Option.bind_eq_bind, Option.bind_some,
        Option.pure_def, Vmm.store, leafOf]
  | some q =>
      cases hs
      simp only [PageSet.op, VmmOp.exec, vmmMapPage, hdescent, Option.bind_eq_bind, Option.bind_some,
        Option.pure_def, Vmm.store, leafOf]

/-- The steps that leave the lock with the call. -/
inductive Moves (F : FrameSource σ) (c : PageSet) : Vmm σ → VmmAt → Vmm σ → VmmAt → Prop
  | down {s : Vmm σ} {table shift next : Nat} {shifts : List Nat}
      (h : child s.mem table (slotAt c.virtual shift) = some next) :
      Moves F c s (.descend table (shift :: shifts)) s (.descend next shifts)
  | take {s : Vmm σ} {table shift : Nat} {shifts : List Nat}
      (h : child s.mem table (slotAt c.virtual shift) = none) (hne : (pmmCalloc F s 1).1 ≠ 0) :
      Moves F c s (.descend table (shift :: shifts)) (pmmCalloc F s 1).2
        (.link table shift (pmmCalloc F s 1).1 shifts)
  | hang {s : Vmm σ} {table shift next : Nat} {shifts : List Nat} :
      Moves F c s (.link table shift next shifts)
        (s.store table (pmlIndex c.virtual shift) (linkEntry next)) (.descend next shifts)

/-- A step stores the leaf, or the call goes on, or it is stopped. -/
theorem VmmAt.next_cases (F : FrameSource σ) (s : Vmm σ) (c : PageSet) (here : VmmAt) :
    (∃ table, here = .descend table [] ∧
      here.next F s c = (s.store table (pmlIndex c.virtual 12) (leafOf c.mapped), none)) ∨
    ∃ s' there, here.next F s c = (s', some there) ∧ (there = .halted ∨ Moves F c s here s' there) := by
  cases here with
  | halted => exact .inr ⟨s, .halted, rfl, .inl rfl⟩
  | link table shift next shifts => exact .inr ⟨_, _, rfl, .inr .hang⟩
  | descend table shifts =>
      cases shifts with
      | nil => exact .inl ⟨table, rfl, rfl⟩
      | cons shift shifts =>
          right
          simp only [VmmAt.next, pmlIndex_eq]
          split
          case isTrue hp => exact ⟨_, _, rfl, .inr (.down (if_pos hp))⟩
          case isFalse hp =>
              split
              case isTrue => exact ⟨_, _, rfl, .inl rfl⟩
              case isFalse hne => exact ⟨_, _, rfl, .inr (.take (if_neg hp) hne)⟩

theorem getNextLevel_absent {i : Slot} (h : child s.mem table i = none) (hne : (pmmCalloc F s 1).1 ≠ 0) :
    getNextLevel F s table i =
      some ((pmmCalloc F s 1).1, (pmmCalloc F s 1).2.store table i (linkEntry (pmmCalloc F s 1).1)) := by
  rw [child] at h
  split at h
  case isTrue => cases h
  case isFalse hp =>
      unfold getNextLevel
      exact (if_neg hp).trans (if_neg hne)

theorem Moves.rest (h : Moves F c s here s' there) : there.rest F s' c = here.rest F s c := by
  cases h with
  | down hc => simp only [VmmAt.rest, descendRest, pmlIndex_eq, getNextLevel_present hc, Option.bind_some]
  | take hc hne =>
      simp only [VmmAt.rest, descendRest, pmlIndex_eq, getNextLevel_absent hc hne, Option.bind_some]
  | hang => rfl

/-! ### The tables under a call -/

/-- The tables that were there stay, with their children. -/
structure TablesStay (F : FrameSource σ) (m : Mem) (lev : Nat → Nat) (s' : Vmm σ) (lev' : Nat → Nat) : Prop where
  tables : Tables F s' lev'
  level : ∀ x, lev x ≠ 0 → lev' x = lev x
  child : ∀ x i c, 2 ≤ lev x → child m x i = some c → child s'.mem x i = some c

/-- The call is at a table of the right level. A frame that is not linked yet came
zeroed from the source, which nothing has asked since. -/
def VmmAt.Placed (F : FrameSource σ) (lev : Nat → Nat) (s : Vmm σ) (c : PageSet) : VmmAt → Prop
  | .descend table shifts => lev table = shifts.length + 1
  | .link table shift next shifts => lev table = shifts.length + 2 ∧ ∃ s₀, Tables F s₀ lev ∧
      child s₀.mem table (slotAt c.virtual shift) = none ∧ next ≠ 0 ∧ pmmCalloc F s₀ 1 = (next, s)
  | .halted => False

theorem Keeps.stays (h : Keeps F s lev s' lev') : TablesStay F s.mem lev s' lev' := ⟨h.tables, h.level, h.child⟩

/-- Until the leaf is stored no walk finds another entry than before the call. -/
theorem Moves.stays (hmove : Moves F c s here s' there) (ht : Tables F s lev)
    (hp : here.Placed F lev s c) : ∃ lev', TablesStay F s.mem lev s' lev' ∧ there.Placed F lev' s' c ∧
      ∀ x is, lev x = is.length →
        lookup (child s'.mem) (entry s'.mem) 0 x is = lookup (child s.mem) (entry s.mem) 0 x is := by
  cases hmove with
  | @down table shift next shifts hc =>
      have hlev : lev table = shifts.length + 2 := hp
      have hnext := ht.levelled table _ next (by omega) hc
      have hbelow : lev next = shifts.length + 1 := by omega
      exact ⟨lev, (Grows.refl ht).stays, hbelow, fun _ _ _ => rfl⟩
  | take hc hne =>
      have hg := ht.calloc hne
      exact ⟨lev, hg.stays, ⟨hp, s, ht, hc, hne, rfl⟩, hg.same⟩
  | @hang table shift next shifts =>
      obtain ⟨hlev, s₀, ht₀, hc, hne, hcalloc⟩ := hp
      have hfst : (pmmCalloc F s₀ 1).1 ≠ 0 := by rwa [hcalloc]
      have hget := getNextLevel_absent hc hfst
      rw [hcalloc] at hget
      obtain ⟨lev', hg, hchild, -⟩ := getNextLevel_spec ht₀ (by omega) hget
      -- The frame of the new table is the only one that has changed since.
      have hsame : ∀ x k, lev x ≠ 0 → entry s.mem x k = entry s₀.mem x k := by
        intro x k hx
        have h := ht₀.calloc_keeps hfst x k hx
        rwa [hcalloc] at h
      have hlookup : ∀ x is, lev x = is.length →
          lookup (child s.mem) (entry s.mem) 0 x is = lookup (child s₀.mem) (entry s₀.mem) 0 x is := by
        intro x is hx
        have h := (ht₀.calloc hfst).same x is hx
        rwa [hcalloc] at h
      have htable := hg.level table (by omega)
      have hnext := hg.tables.levelled table _ next (by omega) hchild
      have hbelow : lev' next = shifts.length + 1 := by omega
      rw [pmlIndex_eq]
      refine ⟨lev', ⟨hg.tables, hg.level, fun x k y hx hy => ?_⟩, hbelow, fun x is hx => ?_⟩
      · exact hg.child x k y hx (child_congr (hsame x k (by omega)) ▸ hy)
      · rw [hlookup x is hx]
        exact hg.same x is hx

/-- The store of a leaf is in a table of the last level. -/
theorem Tables.leaf (ht : Tables F s lev) (hlev : lev table = 1) (i : Slot) (v : Nat) :
    TablesStay F s.mem lev (s.store table i v) lev := by
  have hchild : ∀ x k, 2 ≤ lev x → child (s.store table i v).mem x k = child s.mem x k := by
    intro x k hx
    refine child_congr (entry_write_ne (ht.framed (by omega)) (ht.framed (by omega)) ?_)
    rintro ⟨rfl, -⟩
    omega
  refine ⟨⟨ht.frame, ht.depth, ?_, ?_⟩, fun _ _ => rfl, fun x k y hx hy => (hchild x k hx).trans hy⟩
  · exact fun x k y hx hy => ht.levelled x k y hx (hchild x k hx ▸ hy)
  · intro x k x' k' y hx hxx hy hy'
    exact ht.unshared x k x' k' y hx hxx (hchild x k hx ▸ hy) (hchild x' k' (hxx ▸ hx) ▸ hy')

/-! ### Calls and walks -/

/-- The calls that have stored their leaf are the run `w`, one after the other;
the call under way has changed no translation and would end as it does alone. -/
structure Serialized (F : FrameSource σ) (tops : List Nat) (p : Paging σ) (w : VmmRun σ) (lev : Nat → Nat) :
    Prop where
  reached : VmmReaches F w
  made : w.tops = tops
  log : p.log = w.log
  tables : Tables F p.vmm lev
  level : ∀ x ∈ tops, lev x = 4
  same : ∀ x ∈ tops, ∀ va, translation p.vmm.mem x va = translation w.vmm.mem x va
  idle : p.busy = none → p.vmm = w.vmm
  busy : ∀ c here, p.busy = some (c, here) → here.Placed F lev p.vmm c ∧
    here.rest F p.vmm c = VmmAt.rest F w.vmm c (.entered c) ∧ c.op.On w
  root : p.top ∈ tops
  walk : p.walker.Follows (child p.vmm.mem) p.top (path p.virtual)

theorem PageSet.op_on (h : w.tops = w'.tops) (hon : c.op.On w) : c.op.On w' := by
  obtain ⟨top, virtual, mapped⟩ := c
  cases mapped with
  | none => exact show top ∈ w'.tops from h ▸ hon
  | some q => exact ⟨h ▸ hon.1, hon.2⟩

theorem PageSet.op_top (hon : c.op.On w) : c.top ∈ w.tops := by
  obtain ⟨top, virtual, mapped⟩ := c
  cases mapped with
  | none => exact hon
  | some q => exact hon.1

section Steps
variable {tops : List Nat} {e : PagingEvent}

theorem TablesStay.roots (h : TablesStay F s.mem lev s' lev') (hlev : ∀ x ∈ tops, lev x = 4) :
    ∀ x ∈ tops, lev' x = 4 := by
  intro x hx
  have hold := hlev x hx
  exact (h.level x (by omega)).trans hold

/-- A walk is not disturbed by a step of a call. -/
theorem Serialized.undisturbed (hs : Serialized F tops p w lev) (h : TablesStay F p.vmm.mem lev s' lev') :
    p.walker.Follows (child s'.mem) p.top (path p.virtual) :=
  hs.walk.mono hs.tables.levelled h.child (hs.level p.top hs.root)

theorem Serialized.enter (hs : Serialized F tops p w lev) (hidle : p.busy = none) (hon : c.op.On w) :
    Serialized F tops { p with busy := some (c, .entered c) } w lev := by
  refine { hs with idle := fun h => absurd h (by simp), busy := fun c' here h => ?_ }
  cases h
  refine ⟨hs.level c.top (hs.made ▸ PageSet.op_top hon), ?_, hon⟩
  exact congrArg (fun s => VmmAt.rest F s c (.entered c)) (hs.idle hidle)

theorem Serialized.move (hs : Serialized F tops p w lev) (hbusy : p.busy = some (c, here))
    (h : Moves F c p.vmm here s' there) :
    ∃ lev', Serialized F tops { p with vmm := s', busy := some (c, there) } w lev' := by
  obtain ⟨hplaced, hrest, hon⟩ := hs.busy c here hbusy
  obtain ⟨lev', hstay, hplaced', hsame⟩ := h.stays hs.tables hplaced
  refine ⟨lev', { hs with
    tables := hstay.tables
    level := hstay.roots hs.level
    same := fun x hx va => (hsame x (path va) (hs.level x hx)).trans (hs.same x hx va)
    idle := fun h => absurd h (by simp)
    busy := fun c' here' h' => ?_
    walk := hs.undisturbed hstay }⟩
  cases h'
  exact ⟨hplaced', h.rest.trans hrest, hon⟩

/-- With the store of its leaf a call joins the run. -/
theorem Serialized.leave (hs : Serialized F tops p w lev) (hbusy : p.busy = some (c, .descend table [])) :
    Serialized F tops
      { p with
        vmm := p.vmm.store table (pmlIndex c.virtual 12) (leafOf c.mapped)
        busy := none
        log := c :: p.log }
      { w with
        vmm := p.vmm.store table (pmlIndex c.virtual 12) (leafOf c.mapped)
        log := c :: w.log } lev := by
  obtain ⟨hplaced, hrest, hon⟩ := hs.busy c _ hbusy
  have hstay := hs.tables.leaf hplaced (slotAt c.virtual 12) (leafOf c.mapped)
  rw [← pmlIndex_eq] at hstay
  exact {
    reached := hs.reached.step (VmmAt.rest_entered hrest.symm) hon
    made := hs.made
    log := congrArg (c :: ·) hs.log
    tables := hstay.tables
    level := hs.level
    same := fun _ _ _ => rfl
    idle := fun _ => rfl
    busy := fun _ _ h => by cases h
    root := hs.root
    walk := hs.undisturbed hstay }

theorem Paging.Halted.step (h : p.Halted) (e : PagingEvent) : (p.step F e).Halted := by
  obtain ⟨c, hc⟩ := h
  refine ⟨c, ?_⟩
  cases e with
  | call c' => simp only [Paging.step, hc]
  | run => simp only [Paging.step, hc, VmmAt.next]
  | walk top virtual => exact hc
  | read => exact hc

theorem Serialized.step (hs : Serialized F tops p w lev) (hon : e.On w) :
    (p.step F e).Halted ∨ ∃ w' lev', Serialized F tops (p.step F e) w' lev' := by
  cases e with
  | call c =>
      right
      cases hbusy : p.busy with
      | some q => exact ⟨w, lev, by simpa only [Paging.step, hbusy] using hs⟩
      | none => exact ⟨w, lev, by simpa only [Paging.step, hbusy] using hs.enter hbusy hon⟩
  | run =>
      cases hbusy : p.busy with
      | none => exact .inr ⟨w, lev, by simpa only [Paging.step, hbusy] using hs⟩
      | some q =>
          obtain ⟨c, here⟩ := q
          rcases VmmAt.next_cases F p.vmm c here with ⟨table, rfl, hnext⟩ | ⟨s', there, hnext, hthere⟩
          · simp only [Paging.step, hbusy, hnext]
            exact .inr ⟨_, lev, hs.leave hbusy⟩
          · simp only [Paging.step, hbusy, hnext]
            rcases hthere with rfl | hmove
            · exact .inl ⟨c, rfl⟩
            · exact .inr ⟨w, hs.move hbusy hmove⟩
  | walk top virtual =>
      refine .inr ⟨w, lev, { hs with root := hs.made ▸ hon, walk := ⟨by simp [path], [], rfl, rfl⟩ }⟩
  | read => exact .inr ⟨w, lev, { hs with walk := hs.walk.read }⟩

theorem PagingEvent.on_congr (h : w.tops = w'.tops) (hon : e.On w) : e.On w' := by
  cases e with
  | call c => exact PageSet.op_on h hon
  | walk top virtual => exact show top ∈ w'.tops from h ▸ hon
  | run => trivial
  | read => trivial

theorem serialized_start (hw : VmmReaches F w) : ∃ lev, Serialized F w.tops (.start w) w lev := by
  obtain ⟨lev, hinv⟩ := hw.inv
  exact ⟨lev, {
    reached := hw
    made := rfl
    log := rfl
    tables := hinv.tables
    level := hinv.tops
    same := fun _ _ _ => rfl
    idle := fun _ => rfl
    busy := fun _ _ h => by cases h
    root := List.mem_cons_self
    walk := trivial }⟩

theorem serialized_run (hw : VmmReaches F w) (events : List PagingEvent) (hon : ∀ e ∈ events, e.On w) :
    (events.foldl (Paging.step F) (.start w)).Halted ∨
      ∃ w' lev, Serialized F w.tops (events.foldl (Paging.step F) (.start w)) w' lev := by
  induction events using List.reverseRecOn with
  | nil =>
      obtain ⟨lev, hs⟩ := serialized_start hw
      exact .inr ⟨w, lev, hs⟩
  | append_singleton events e ih =>
      rw [List.foldl_append]
      rcases ih fun e' he' => hon e' (List.mem_append_left _ he') with hhalt | ⟨w', lev, hs⟩
      · exact .inl (hhalt.step e)
      · exact hs.step (PagingEvent.on_congr hs.made.symm (hon e (by simp)))

end Steps

/-- Whatever calls and walks are mixed in whatever order: the calls that have
stored their leaf are a run of the functions one after the other, and a walk of a
lower-half address ends with the entry that the last of them set, at the moment of
its last read. This holds until an `assert` stops the kernel for want of a frame. -/
theorem page_walk_linearizes (hw : VmmReaches F w) (events : List PagingEvent)
    (hon : ∀ e ∈ events, e.On w) (hp : p = events.foldl (Paging.step F) (.start w)) (hlive : ¬ p.Halted) :
    (∃ w', VmmReaches F w' ∧ w'.tops = w.tops ∧ w'.log = p.log ∧ (p.busy = none → w'.vmm = p.vmm)) ∧
    ∀ x is v, p.walker = .underway x is → (p.step F .read).walker = .ended v → p.virtual < 2 ^ 47 →
      v = leafOf (lastMap p.log p.top p.virtual) := by
  subst hp
  obtain ⟨w', lev, hs⟩ := (serialized_run hw events hon).resolve_left hlive
  refine ⟨⟨w', hs.reached, hs.made, hs.log.symm, fun h => (hs.idle h).symm⟩, ?_⟩
  intro x is v hat hread hva
  obtain ⟨_, hinv⟩ := hs.reached.inv
  have hwalk := hs.walk
  rw [hat] at hwalk
  simp only [Paging.step, hat] at hread
  have hfound := hwalk.ends hread
  rw [hs.log, ← hinv.leaves _ (hs.made ▸ hs.root) _ (lower_slot hva), ← hs.same _ hs.root]
  exact hfound

theorem VmmAt.next_present (h : child s.mem table (slotAt c.virtual shift) = some next) :
    (VmmAt.descend table (shift :: shifts)).next F s c = (s, some (.descend next shifts)) := by
  obtain ⟨hp, rfl⟩ := child_some h
  simp only [VmmAt.next, pmlIndex_eq]
  exact if_pos hp

/-- A call and a walk of the same page go down in turn. -/
theorem Paging.foldl_turns {pml3 pml2 pml1 : Nat} (h₃ : child w.vmm.mem c.top (slotAt c.virtual 39) = some pml3)
    (h₂ : child w.vmm.mem pml3 (slotAt c.virtual 30) = some pml2)
    (h₁ : child w.vmm.mem pml2 (slotAt c.virtual 21) = some pml1) :
    [PagingEvent.call c, .walk c.top c.virtual, .run, .read, .run, .read, .run, .read].foldl (Paging.step F)
      (.start w) = ⟨w.vmm, some (c, .descend pml1 []), w.log, c.top, c.virtual,
        .underway pml1 [slotAt c.virtual 12]⟩ := by
  simp only [List.foldl_cons, List.foldl_nil, Paging.step, Paging.start, VmmAt.entered,
    VmmAt.next_present h₃, VmmAt.next_present h₂, VmmAt.next_present h₁, path, Walker.read, h₃, h₂, h₁]

/-- The three tables on the way to a page that is mapped. -/
theorem tables_of_translation {m : Mem} {top va : Nat} (h : translation m top va ≠ 0) :
    ∃ pml3 pml2 pml1, child m top (slotAt va 39) = some pml3 ∧ child m pml3 (slotAt va 30) = some pml2 ∧
      child m pml2 (slotAt va 21) = some pml1 := by
  cases hreach : reach (child m) top (path va) with
  | none => exact absurd (by rw [translation, lookup, hreach]) h
  | some q =>
      simp only [path, reach, Option.bind_eq_some_iff] at hreach
      obtain ⟨pml3, h₃, pml2, h₂, pml1, h₁, -⟩ := hreach
      exact ⟨pml3, pml2, pml1, h₃, h₂, h₁⟩

/-- A page is looked up while a call unmaps it: the walk reads an entry after each
read of the call, and ends before the call's store. -/
theorem walk_meets_unmap : ∃ (w : VmmRun { p : Pmm // p.limit ≤ 2 ^ 40 }) (events : List PagingEvent)
    (p : Paging { p : Pmm // p.limit ≤ 2 ^ 40 }), VmmReaches pmmSource w ∧ (∀ e ∈ events, e.On w) ∧
    p = events.foldl (Paging.step pmmSource) (.start w) ∧ p.busy ≠ none ∧
    (p.step pmmSource .read).walker = .ended 0x5007 := by
  obtain ⟨r, hr, -, hready⟩ := newTop_returns (n := 18) openVmm_ready
  obtain ⟨w, hexec, -⟩ := VmmOp.exec_returns (w := ⟨r.2, r.1, [], []⟩) (n := 15) hready
    (.mapPage r.1 0x5000 0x400000 7)
  have hreach := (VmmReaches.init hr).step hexec (by simp [VmmOp.On, VmmRun.tops])
  obtain ⟨s, -, rfl⟩ := VmmOp.exec_mapPage hexec
  obtain ⟨_, hinv⟩ := hreach.inv
  have hlast : leafOf (lastMap [⟨r.1, 0x400000, some (0x5000, 7)⟩] r.1 0x400123) = 0x5007 := by
    simp [lastMap, page, frameSize, leafOf]
  have hleaf := (hinv.leaves r.1 List.mem_cons_self 0x400123 (by decide)).trans hlast
  obtain ⟨pml3, pml2, pml1, h₃, h₂, h₁⟩ := tables_of_translation (hleaf.trans_ne (by decide))
  let c : PageSet := ⟨r.1, 0x400123, none⟩
  have hp := (Paging.foldl_turns (F := pmmSource) (c := c) h₃ h₂ h₁).symm
  have hon : ∀ e ∈ [PagingEvent.call c, .walk c.top c.virtual, .run, .read, .run, .read, .run, .read],
      e.On ⟨s, r.1, [], [⟨r.1, 0x400000, some (0x5000, 7)⟩]⟩ := by
    simp [c, PagingEvent.On, PageSet.op, VmmOp.On, VmmRun.tops]
  have hlow : 0x400123 < 2 ^ 47 := by decide
  have hfound := (page_walk_linearizes hreach _ hon hp (by rintro ⟨_, ⟨⟩⟩)).2 pml1 _ _ rfl rfl hlow
  exact ⟨_, _, _, hreach, hon, hp, by simp, congrArg _ (hfound.trans hlast)⟩

end Machine
end Flan.Memory
