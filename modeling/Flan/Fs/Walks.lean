import Flan.Fs.Resolve
import Flan.Lib.Runs

/-! Path walks on several CPUs at once. The cursor of `strtok` is shared; the steps
of a walk are its calls of `strtok` and its lookups, on a tree that stays as it
is. `vfs_open` and `vfs_mount` walk under `vfs_lock`, the other callers do not. -/
namespace Flan.Fs
open Flan.Lib

/-! ### Callers -/

/-- The functions that call `path_to_node`. -/
inductive Entry where
  | vfsOpen (path : List Byte)
  | vfsMount (source : Option (List Byte)) (target : List Byte)
  | vfsCreate (path : List Byte)
  | getNode (path : List Byte)
  | pathToParent (path : List Byte)

structure Caller where
  parent : Option Nat
  entry : Entry

namespace Caller

/-- The paths it walks, in order. -/
def paths (c : Caller) : List (List Byte) :=
  match c.entry with
  | .vfsOpen path => [path]
  | .vfsMount source target => source.toList ++ [target]
  | .vfsCreate path => [path]
  | .getNode path => [path]
  | .pathToParent path => [path]

/-- It holds `vfs_lock` during its walks. -/
def locks (c : Caller) : Bool :=
  match c.entry with
  | .vfsOpen _ => true
  | .vfsMount _ _ => true
  | .vfsCreate _ => false
  | .getNode _ => false
  | .pathToParent _ => false

end Caller

/-- Where a caller is: before its lock, between walks, before the first `strtok`
of a walk, before a lookup, or before a `strtok(NULL, "/")`. -/
inductive Pc where
  | idle
  | between
  | first (newPath parent current : Nat)
  | lookup (newPath : Nat) (segment : Nat × Nat) (parent current : Nat)
  | next (newPath : Nat) (current : Option Nat) (parent : Nat)
  | ended
  | faulted
  deriving DecidableEq

def Pc.isNext : Pc → Bool
  | .next _ _ _ => true
  | _ => false

/-- The copy of the path that a walk under way has made. -/
def Pc.newPath : Pc → Option Nat
  | .first b _ _ => some b
  | .lookup b _ _ _ => some b
  | .next b _ _ => some b
  | _ => none

/-- A caller under way. `rest` are the walks that have not returned, `log` is what
the others returned. `left` is not part of the program: it records the cursor as
the last `strtok` call of this caller left it. -/
structure Walker where
  pc : Pc
  rest : List (List Byte)
  log : List (List Byte × PathToNode)
  left : Option (Nat × Nat)

/-- What the callers share: the state of `strtok`, the buffers handed out and
those given back to the heap, and `vfs_lock` with its holder. -/
structure Shared where
  tok : Strtok
  buffers : Nat
  freed : List Nat
  lock : Option Nat

/-- The walk under way returns. -/
def Walker.return (w : Walker) (r : PathToNode) : Walker :=
  { w with pc := .between, rest := w.rest.tail, log := w.log ++ w.rest.head?.toList.map (·, r) }

/-- The beginning of `path_to_node`, up to the copy of the path. -/
def beginWalk (v : Vfs) (c : Caller) (sh : Shared) (w : Walker) (path : List Byte) : Shared × Walker :=
  if path = [] then (sh, w.return ⟨none, none⟩)
  else
    match startNodes v c.parent path with
    | none => (sh, { w with pc := .faulted })
    | some start =>
        match newPath path with
        | none => (sh, w.return ⟨some start.1, some start.2⟩)
        | some new =>
            ({ sh with
                tok := { sh.tok with bufs := Function.update sh.tok.bufs sh.buffers new }
                buffers := sh.buffers + 1 },
              { w with pc := .first sh.buffers start.1 start.2 })

/-- One step of caller `i`. -/
def walkStep (v : Vfs) (i : Nat) (c : Caller) (sh : Shared) (w : Walker) : Shared × Walker :=
  match w.pc with
  | .idle =>
      if c.locks then
        if sh.lock = none then ({ sh with lock := some i }, { w with pc := .between }) else (sh, w)
      else (sh, { w with pc := .between })
  | .between =>
      match w.rest with
      | [] => (if c.locks then { sh with lock := none } else sh, { w with pc := .ended })
      | path :: _ => beginWalk v c sh w path
  | .first b parent current =>
      let r := strtok sh.tok (some b)
      let w := { w with left := r.2.s }
      ({ sh with tok := r.2 },
        match r.1 with
        | some segment => { w with pc := .lookup b segment parent current }
        | none => w.return ⟨some parent, some current⟩)
  | .lookup b segment parent current =>
      match (v.node current).children with
      | none => (sh, { w with pc := .faulted })
      | some children => (sh, { w with pc := .next b (hashmapGet children (sh.tok.str segment)) parent })
  | .next b current parent =>
      let r := strtok sh.tok none
      let w := { w with left := r.2.s }
      match current with
      | some n =>
          let parent := if (v.node n).children.isSome then n else parent
          ({ sh with tok := r.2 },
            match r.1 with
            | some segment => { w with pc := .lookup b segment parent n }
            | none => w.return ⟨some parent, some n⟩)
      | none =>
          ({ sh with tok := r.2, freed := b :: sh.freed },
            w.return (if r.1.isSome then ⟨none, none⟩ else ⟨some parent, none⟩))
  | .ended => (sh, w)
  | .faulted => (sh, w)

/-! ### Interleavings -/

structure Walks where
  shared : Shared
  walker : Nat → Walker

/-- A caller takes a step, or the owner of a freed buffer's memory writes to it. -/
inductive WalkAct where
  | run (i : Nat)
  | reuse (b : Nat) (bytes : List Byte)
  deriving DecidableEq

def Walks.step (v : Vfs) (callers : Nat → Caller) (s : Walks) : WalkAct → Walks
  | .run i =>
      let r := walkStep v i (callers i) s.shared (s.walker i)
      ⟨r.1, Function.update s.walker i r.2⟩
  | .reuse b bytes =>
      if b ∈ s.shared.freed then
        { s with shared.tok.bufs := Function.update s.shared.tok.bufs b bytes }
      else s

def Walks.init (callers : Nat → Caller) : Walks :=
  { shared := ⟨⟨fun _ => [], none⟩, 0, [], none⟩
    walker := fun i => ⟨.idle, (callers i).paths, [], none⟩ }

def Walks.run (v : Vfs) (callers : Nat → Caller) : Walks → List WalkAct → Walks :=
  List.foldl (Walks.step v callers)

/-- A `strtok(NULL, "/")` finds the cursor as the same caller's last call left it. -/
def OwnCursor (s : Walks) : WalkAct → Prop
  | .run i => (s.walker i).pc.isNext = true → s.shared.tok.s = (s.walker i).left
  | .reuse _ _ => True

instance (s : Walks) : (a : WalkAct) → Decidable (OwnCursor s a)
  | .run i => inferInstanceAs (Decidable ((s.walker i).pc.isNext = true → _))
  | .reuse _ _ => .isTrue trivial

/-! ### One caller -/

/-- A bound for the steps that these walks take. -/
def budget (paths : List (List Byte)) : Nat := (paths.map fun p => 2 * p.length + 4).sum + 1

/-- The walk of `path_to_node` behind a lookup. -/
def afterLookup (v : Vfs) (current : Option Nat) (parent : Nat) (cs : List (List Byte)) :
    Option PathToNode :=
  match current with
  | some n => walkSegs v cs (if (v.node n).children.isSome then n else parent) n
  | none => some (if cs = [] then ⟨some parent, none⟩ else ⟨none, none⟩)

/-- The rest of the walk gives what `path_to_node` gives alone, within `n` steps. -/
inductive PcInv (v : Vfs) (c : Caller) (st : Strtok) : List (List Byte) → Pc → Nat → Prop
  | idle {rest n} (hn : budget rest ≤ n) : PcInv v c st rest .idle n
  | between {rest n} (hn : budget rest ≤ n) : PcInv v c st rest .between n
  | first {path rest b parent current n} (hz : 0 ∉ st.bufs b)
      (hsolo : pathToNode v c.parent path = walkSegs v ((st.bufs b).splitOn slash) parent current)
      (hn : 2 * ((st.bufs b).splitOn slash).length + 1 + budget rest ≤ n) :
      PcInv v c st (path :: rest) (.first b parent current) n
  | lookup {path rest b p parent current cs n} (hs : st.Scans b cs)
      (hsolo : pathToNode v c.parent path = walkSegs v (st.str (b, p) :: cs) parent current)
      (hn : 2 * cs.length + 2 + budget rest ≤ n) :
      PcInv v c st (path :: rest) (.lookup b (b, p) parent current) n
  | next {path rest b parent current cs n} (hs : st.Scans b cs)
      (hsolo : pathToNode v c.parent path = afterLookup v current parent cs)
      (hn : 2 * cs.length + 1 + budget rest ≤ n) :
      PcInv v c st (path :: rest) (.next b current parent) n
  | ended {n} : PcInv v c st [] .ended n
  | faulted {path rest n} (hsolo : pathToNode v c.parent path = none) :
      PcInv v c st (path :: rest) .faulted n

/-- The caller has logged what its walks give alone. -/
structure WalkerInv (v : Vfs) (c : Caller) (bufs : Nat → List Byte) (w : Walker) (n : Nat) : Prop where
  paths : w.log.map Prod.fst ++ w.rest = c.paths
  log : ∀ e ∈ w.log, pathToNode v c.parent e.1 = some e.2
  pc : PcInv v c ⟨bufs, w.left⟩ w.rest w.pc n

/-- What a step of a caller does to the buffers, when it works on `b` before and on
`b'` after it. -/
structure Private (sh sh' : Shared) (b b' : Option Nat) : Prop where
  buffers : sh.buffers ≤ sh'.buffers
  bufs : ∀ x, x < sh.buffers → b ≠ some x → sh'.tok.bufs x = sh.tok.bufs x
  own : ∀ x, b' = some x → b = some x ∨ sh.buffers ≤ x ∧ x < sh'.buffers
  freed : ∀ x ∈ sh'.freed, x ∈ sh.freed ∨ b = some x ∧ b' = none

section Step
variable {v : Vfs} {i n : Nat} {c : Caller} {sh : Shared} {w : Walker} {bufs : Nat → List Byte}
  {path : List Byte} {rest : List (List Byte)} {r : PathToNode}

theorem budget_cons (path : List Byte) (rest : List (List Byte)) :
    budget (path :: rest) = 2 * path.length + 4 + budget rest := by
  simp only [budget, List.map_cons, List.sum_cons]
  omega

theorem Private.refl {lock : Option Nat} (b : Option Nat) : Private sh { sh with lock := lock } b b :=
  ⟨le_refl _, fun _ _ _ => rfl, fun _ h => .inl h, fun _ h => .inl h⟩

theorem Private.drop (b : Option Nat) : Private sh sh b none :=
  ⟨le_refl _, fun _ _ _ => rfl, fun _ h => (nomatch h), fun _ h => .inl h⟩

/-- Only the caller's own buffer and cursor enter its invariant. -/
theorem PcInv.frame {st st' : Strtok} {pc : Pc} (h : PcInv v c st rest pc n) (hs : st'.s = st.s)
    (hb : ∀ b, pc.newPath = some b → st'.bufs b = st.bufs b) : PcInv v c st' rest pc n := by
  have hscan : ∀ {b cs}, st'.bufs b = st.bufs b → st.Scans b cs → st'.Scans b cs := by
    intro b cs hb h
    cases h with
    | done h => exact .done (hs.trans h)
    | more h hz hcs => exact .more (hs.trans h) (by rwa [hb]) (by rwa [hb])
  cases h with
  | idle hn => exact .idle hn
  | between hn => exact .between hn
  | first hz hsolo hn =>
      rw [← hb _ rfl] at hz hsolo hn
      exact .first hz hsolo hn
  | @lookup path rest b p _ _ _ _ hscans hsolo hn =>
      have hstr : st.str (b, p) = st'.str (b, p) := by simp only [Strtok.str, hb b rfl]
      rw [hstr] at hsolo
      exact .lookup (hscan (hb _ rfl) hscans) hsolo hn
  | next hscans hsolo hn => exact .next (hscan (hb _ rfl) hscans) hsolo hn
  | ended => exact .ended
  | faulted hsolo => exact .faulted hsolo

theorem WalkerInv.frame {bufs' : Nat → List Byte} (h : WalkerInv v c bufs w n)
    (hb : ∀ b, w.pc.newPath = some b → bufs' b = bufs b) : WalkerInv v c bufs' w n :=
  ⟨h.paths, h.log, h.pc.frame rfl hb⟩

theorem WalkerInv.return {w' : Walker} {bufs' : Nat → List Byte} {m : Nat} (h : WalkerInv v c bufs w n)
    (hrest : w.rest = path :: rest) (hw : w'.rest = w.rest ∧ w'.log = w.log)
    (hsolo : pathToNode v c.parent path = some r) (hm : budget rest ≤ m) :
    WalkerInv v c bufs' (w'.return r) m := by
  have hlog : (w'.return r).log = w.log ++ [(path, r)] := by
    simp only [Walker.return, hw.1, hw.2, hrest]
    rfl
  have hrest' : (w'.return r).rest = rest := by
    simp only [Walker.return, hw.1, hrest]
    rfl
  refine ⟨?_, ?_, ?_⟩
  · have hp := h.paths
    rw [hlog, hrest']
    rw [hrest] at hp
    simpa using hp
  · rw [hlog]
    intro e he
    rcases List.mem_append.mp he with he | he
    · exact h.log e he
    · rw [List.mem_singleton.mp he]
      exact hsolo
  · rw [hrest']
    exact .between hm

/-- The beginning of a walk. -/
theorem beginWalk_keeps (h : WalkerInv v c sh.tok.bufs w n) (hrest : w.rest = path :: rest)
    (hz : 0 ∉ path) (hn : budget (path :: rest) ≤ n) (hpc : w.pc.newPath = none) :
    WalkerInv v c (beginWalk v c sh w path).1.tok.bufs (beginWalk v c sh w path).2 (n - 1) ∧
      Private sh (beginWalk v c sh w path).1 w.pc.newPath (beginWalk v c sh w path).2.pc.newPath := by
  rw [budget_cons] at hn
  rw [hpc, beginWalk]
  by_cases hnil : path = []
  · rw [if_pos hnil]
    exact ⟨h.return hrest ⟨rfl, rfl⟩ (by rw [pathToNode, if_pos hnil]) (by omega), .refl none⟩
  · have hsolo := pathToNode_eq v c.parent hz hnil
    rw [if_neg hnil]
    cases hstart : startNodes v c.parent path with
    | none =>
        rw [hstart] at hsolo
        refine ⟨⟨h.paths, h.log, ?_⟩, .refl none⟩
        simp only [hrest]
        exact .faulted hsolo
    | some start =>
        rw [hstart, Option.bind_some, segments] at hsolo
        cases hnew : newPath path with
        | none =>
            rw [hnew] at hsolo
            exact ⟨h.return hrest ⟨rfl, rfl⟩ hsolo (by omega), .refl none⟩
        | some new =>
            rw [hnew] at hsolo
            have hbuf : Function.update sh.tok.bufs sh.buffers new sh.buffers = new :=
              Function.update_self _ _ _
            have hlen := length_splitOn_le slash new
            have hshort : new.length ≤ path.length := by
              obtain ⟨a, t, hpath, _⟩ := newPath_decomp hnew
              rw [hpath, List.length_append, List.length_append]
              omega
            refine ⟨⟨h.paths, h.log, ?_⟩, ?_⟩
            · simp only [hrest]
              refine .first ?_ ?_ ?_
              · simp only [hbuf]
                exact fun h => hz (mem_of_mem_newPath hnew 0 h)
              · simp only [hbuf]
                exact hsolo
              · simp only [hbuf]
                omega
            · refine ⟨Nat.le_succ _, ?_, ?_, fun x hx => .inl hx⟩
              · intro x hx _
                exact Function.update_of_ne (Nat.ne_of_lt hx) _ _
              · rintro x ⟨⟩
                exact .inr ⟨le_refl _, Nat.lt_succ_self _⟩

/-- A `strtok` call writes only to the buffer it reads. -/
theorem strtok_bufs {st : Strtok} {str : Option Nat} {b : Nat}
    (h : ∀ x p, st.start str = some (x, p) → x = b) {x : Nat} (hx : x ≠ b) :
    (strtok st str).2.bufs x = st.bufs x := by
  rw [strtok]
  cases hs : st.start str with
  | none => rfl
  | some y =>
      obtain ⟨y, p⟩ := y
      have hy := h y p hs
      subst hy
      simp only
      cases findDelim ((st.bufs y).drop p) with
      | none => rfl
      | some k => exact Function.update_of_ne hx _ _

theorem Strtok.Scans.start {st : Strtok} {b : Nat} {cs : List (List Byte)} (h : st.Scans b cs) :
    ∀ x p, st.start none = some (x, p) → x = b := by
  intro x p hs
  cases h with
  | done h =>
      rw [Strtok.start, h] at hs
      cases hs
  | more h _ _ =>
      rw [Strtok.start, h] at hs
      cases hs
      rfl

/-- The effect of a `strtok` call on the walk's own buffer. -/
theorem private_strtok {str : Option Nat} {b : Nat} {freed : List Nat} {b' : Option Nat}
    (hstart : ∀ x p, sh.tok.start str = some (x, p) → x = b)
    (hb' : b' = some b ∧ freed = sh.freed ∨ b' = none ∧ freed = b :: sh.freed ∨
      b' = none ∧ freed = sh.freed) :
    Private sh { sh with tok := (strtok sh.tok str).2, freed := freed } (some b) b' := by
  refine ⟨le_refl _, ?_, ?_, ?_⟩
  · intro x _ hx
    exact strtok_bufs hstart fun h => hx (h ▸ rfl)
  · rintro x rfl
    rcases hb' with ⟨h, _⟩ | ⟨h, _⟩ | ⟨h, _⟩
    · exact .inl h.symm
    · cases h
    · cases h
  · intro x hx
    rcases hb' with ⟨_, h⟩ | ⟨h, hf⟩ | ⟨_, h⟩
    · exact .inl (h ▸ hx)
    · rcases List.mem_cons.mp (hf ▸ hx) with rfl | hx
      · exact .inr ⟨rfl, h⟩
      · exact .inl hx
    · exact .inl (h ▸ hx)

/-- A `strtok(NULL, "/")` of a walk whose cursor is its own. -/
theorem nextStep_keeps {b parent : Nat} {current : Option Nat} {cs : List (List Byte)}
    (h : WalkerInv v c sh.tok.bufs w n) (hpc : w.pc = .next b current parent)
    (hrest : w.rest = path :: rest) (hscan : sh.tok.Scans b cs)
    (hsolo : pathToNode v c.parent path = afterLookup v current parent cs)
    (hn : 2 * cs.length + 1 + budget rest ≤ n) :
    WalkerInv v c (walkStep v i c sh w).1.tok.bufs (walkStep v i c sh w).2 (n - 1) ∧
      Private sh (walkStep v i c sh w).1 w.pc.newPath (walkStep v i c sh w).2.pc.newPath := by
  have hpriv := fun freed b' => @private_strtok sh none b freed b' hscan.start
  simp only [walkStep, hpc]
  cases current with
  | some m =>
      cases cs with
      | nil =>
          have hstop := hscan.stop
          refine ⟨?_, ?_⟩
          · simp only [hstop]
            exact h.return hrest ⟨rfl, rfl⟩ hsolo (by omega)
          · simp only [hstop]
            exact hpriv sh.freed none (.inr (.inr ⟨rfl, rfl⟩))
      | cons d cs =>
          obtain ⟨p, st', htok, hstr, hscan'⟩ := hscan.next
          rw [htok] at hpriv
          simp only [htok]
          rw [List.length_cons] at hn
          refine ⟨⟨h.paths, h.log, ?_⟩, hpriv sh.freed (some b) (.inl ⟨rfl, rfl⟩)⟩
          simp only [hrest]
          refine .lookup hscan' ?_ (by omega)
          rw [hsolo]
          exact congrArg (fun c => walkSegs v (c :: cs) _ m) hstr.symm
  | none =>
      have hret : (if (strtok sh.tok none).1.isSome then (⟨none, none⟩ : PathToNode)
          else ⟨some parent, none⟩) = if cs = [] then ⟨some parent, none⟩ else ⟨none, none⟩ := by
        cases cs with
        | nil =>
            rw [hscan.stop]
            rfl
        | cons d cs =>
            obtain ⟨p, st', htok, _⟩ := hscan.next
            rw [htok]
            rfl
      refine ⟨?_, hpriv (b :: sh.freed) none (.inr (.inl ⟨rfl, rfl⟩))⟩
      rw [hret]
      exact h.return hrest ⟨rfl, rfl⟩ hsolo (by omega)

/-- The first `strtok` of a walk, on its own buffer. -/
theorem firstStep_keeps {b parent current : Nat} (h : WalkerInv v c sh.tok.bufs w n)
    (hpc : w.pc = .first b parent current) (hrest : w.rest = path :: rest) (hz : 0 ∉ sh.tok.bufs b)
    (hsolo : pathToNode v c.parent path = walkSegs v ((sh.tok.bufs b).splitOn slash) parent current)
    (hn : 2 * ((sh.tok.bufs b).splitOn slash).length + 1 + budget rest ≤ n) :
    WalkerInv v c (walkStep v i c sh w).1.tok.bufs (walkStep v i c sh w).2 (n - 1) ∧
      Private sh (walkStep v i c sh w).1 w.pc.newPath (walkStep v i c sh w).2.pc.newPath := by
  cases hsplit : (sh.tok.bufs b).splitOn slash with
  | nil => exact absurd hsplit (List.splitOn_ne_nil _ _)
  | cons d cs =>
      obtain ⟨st', htok, hstr, hscan⟩ := @strtok_at sh.tok (some b) b 0 d cs rfl hz hsplit
      have hpriv := @private_strtok sh (some b) b sh.freed (some b) (by rintro x p ⟨⟩; rfl) (.inl ⟨rfl, rfl⟩)
      rw [htok] at hpriv
      rw [hsplit] at hsolo hn
      rw [List.length_cons] at hn
      simp only [walkStep, hpc, htok]
      refine ⟨⟨h.paths, h.log, ?_⟩, hpriv⟩
      simp only [hrest]
      refine .lookup hscan ?_ (by omega)
      rw [hsolo]
      exact congrArg (fun c => walkSegs v (c :: cs) parent current) hstr.symm

/-- One step keeps the invariant and uses up one step of the bound, unless the
caller waits. -/
theorem walkStep_keeps (hz : ∀ p ∈ c.paths, 0 ∉ p) (h : WalkerInv v c sh.tok.bufs w n)
    (hown : w.pc.isNext = true → sh.tok.s = w.left) :
    WalkerInv v c (walkStep v i c sh w).1.tok.bufs (walkStep v i c sh w).2
        (if w.pc = .idle then n else n - 1) ∧
      Private sh (walkStep v i c sh w).1 w.pc.newPath (walkStep v i c sh w).2.pc.newPath := by
  obtain ⟨pc, rest, log, left⟩ := w
  have hpc := h.pc
  cases hpc with
  | idle hn =>
      have hkeep : WalkerInv v c sh.tok.bufs ⟨.between, rest, log, left⟩ n :=
        ⟨h.paths, h.log, .between hn⟩
      simp only [walkStep, if_true]
      split
      · split
        · exact ⟨hkeep, .refl none⟩
        · exact ⟨h, .refl none⟩
      · exact ⟨hkeep, .refl none⟩
  | between hn =>
      cases rest with
      | nil =>
          have hkeep : WalkerInv v c sh.tok.bufs ⟨.ended, [], log, left⟩ (n - 1) :=
            ⟨h.paths, h.log, .ended⟩
          simp only [walkStep]
          split
          · exact ⟨hkeep, .refl none⟩
          · exact ⟨hkeep, .refl none⟩
      | cons path rest =>
          have hmem : path ∈ c.paths := by
            rw [← h.paths]
            exact List.mem_append_right _ List.mem_cons_self
          exact beginWalk_keeps h rfl (hz path hmem) hn rfl
  | @first path rest b parent current _ hzb hsolo hn =>
      rw [if_neg (by simp)]
      exact firstStep_keeps h rfl rfl hzb hsolo hn
  | @lookup path rest b p parent current cs _ hscan hsolo hn =>
      rw [walkSegs] at hsolo
      simp only [walkStep]
      cases hc : (v.node current).children with
      | none =>
          rw [hc] at hsolo
          exact ⟨⟨h.paths, h.log, .faulted hsolo⟩, .drop _⟩
      | some children =>
          rw [hc] at hsolo
          refine ⟨⟨h.paths, h.log, .next hscan ?_ ?_⟩, .refl _⟩
          · rw [hsolo]
            rfl
          · rw [if_neg (by simp)]
            omega
  | @next path rest b parent current cs _ hscan hsolo hn =>
      have hcur : sh.tok.s = left := hown rfl
      have hscan : sh.tok.Scans b cs := by
        subst hcur
        exact hscan
      rw [if_neg (by simp)]
      exact nextStep_keeps h rfl rfl hscan hsolo hn
  | ended =>
      refine ⟨⟨h.paths, h.log, .ended⟩, .refl none⟩
  | faulted hsolo => exact ⟨⟨h.paths, h.log, .faulted hsolo⟩, .refl none⟩

theorem walkStep_not_idle (h : w.pc ≠ .idle) : (walkStep v i c sh w).2.pc ≠ .idle := by
  rw [walkStep]
  cases hpc : w.pc with
  | idle => exact absurd hpc h
  | between =>
      cases w.rest with
      | nil => exact Pc.noConfusion
      | cons path rest =>
          simp only [beginWalk]
          split
          · exact Pc.noConfusion
          · split
            · exact Pc.noConfusion
            · split
              · exact Pc.noConfusion
              · exact Pc.noConfusion
  | first b parent current =>
      simp only
      split
      · exact Pc.noConfusion
      · exact Pc.noConfusion
  | lookup b segment parent current =>
      simp only
      split
      · exact Pc.noConfusion
      · exact Pc.noConfusion
  | next b current parent =>
      cases current with
      | none => exact Pc.noConfusion
      | some m =>
          simp only
          split
          · exact Pc.noConfusion
          · exact Pc.noConfusion
  | ended => simp [hpc]
  | faulted => simp [hpc]

end Step

/-! ### All callers -/

/-- Every caller is on its way to what its walks give alone, within `due` steps,
and no two work on the same buffer. -/
structure WalksInv (v : Vfs) (callers : Nat → Caller) (s : Walks) (due : Nat → Nat) : Prop where
  walker : ∀ i, WalkerInv v (callers i) s.shared.tok.bufs (s.walker i) (due i)
  live : ∀ i b, (s.walker i).pc.newPath = some b → b < s.shared.buffers ∧ b ∉ s.shared.freed
  apart : ∀ i j b, (s.walker i).pc.newPath = some b → (s.walker j).pc.newPath = some b → i = j
  freed : ∀ b ∈ s.shared.freed, b < s.shared.buffers

/-- The bounds after an action. -/
def spend (s : Walks) (due : Nat → Nat) : WalkAct → Nat → Nat
  | .run i => Function.update due i (if (s.walker i).pc = .idle then due i else due i - 1)
  | .reuse _ _ => due

section All
variable {v : Vfs} {callers : Nat → Caller} {s : Walks} {due : Nat → Nat}

theorem WalksInv.freed_after {sh : Shared} {i : Nat} {own : Option Nat} (h : WalksInv v callers s due)
    (hpriv : Private s.shared sh (s.walker i).pc.newPath own) : ∀ x ∈ sh.freed, x < s.shared.buffers := by
  intro x hx
  rcases hpriv.freed x hx with hx | hx
  · exact h.freed x hx
  · exact (h.live i x hx.1).1

/-- The caller's buffer after its step is its old one or a new one. -/
theorem WalksInv.own_after {sh : Shared} {i x : Nat} (h : WalksInv v callers s due)
    (hpriv : Private s.shared sh (s.walker i).pc.newPath (some x)) :
    x < sh.buffers ∧ x ∉ sh.freed ∧ ∀ j, (s.walker j).pc.newPath = some x → j = i := by
  rcases hpriv.own x rfl with hold | ⟨hge, hlt⟩
  · refine ⟨Nat.lt_of_lt_of_le (h.live i x hold).1 hpriv.buffers, ?_, fun j hj => h.apart j i x hj hold⟩
    intro hmem
    rcases hpriv.freed x hmem with hmem | ⟨_, hnone⟩
    · exact (h.live i x hold).2 hmem
    · cases hnone
  · refine ⟨hlt, fun hmem => ?_, fun j hj => ?_⟩
    · exact absurd (h.freed_after hpriv x hmem) (Nat.not_lt.mpr hge)
    · exact absurd (h.live j x hj).1 (Nat.not_lt.mpr hge)

theorem WalksInv.step (h : WalksInv v callers s due) (hz : ∀ i, ∀ p ∈ (callers i).paths, 0 ∉ p)
    {a : WalkAct} (hown : OwnCursor s a) : WalksInv v callers (s.step v callers a) (spend s due a) := by
  cases a with
  | run i =>
      obtain ⟨hkeep, hpriv⟩ := walkStep_keeps (i := i) (hz i) (h.walker i) hown
      have hself := fun x (hx : (walkStep v i (callers i) s.shared (s.walker i)).2.pc.newPath = some x) =>
        h.own_after (hx ▸ hpriv)
      constructor
      · intro j
        by_cases hj : j = i
        · subst hj
          simp only [Walks.step, spend, Function.update_self]
          exact hkeep
        · simp only [Walks.step, spend, Function.update_of_ne hj]
          refine (h.walker j).frame fun b hb => ?_
          exact hpriv.bufs b (h.live j b hb).1 fun hi => hj (h.apart j i b hb hi)
      · intro j b hb
        by_cases hj : j = i
        · subst hj
          simp only [Walks.step, Function.update_self] at hb
          exact ⟨(hself b hb).1, (hself b hb).2.1⟩
        · simp only [Walks.step, Function.update_of_ne hj] at hb
          refine ⟨Nat.lt_of_lt_of_le (h.live j b hb).1 hpriv.buffers, fun hmem => ?_⟩
          rcases hpriv.freed b hmem with hmem | ⟨hi, _⟩
          · exact (h.live j b hb).2 hmem
          · exact hj (h.apart j i b hb hi)
      · intro j k b hjb hkb
        simp only [Walks.step] at hjb hkb
        by_cases hj : j = i
        · subst hj
          rw [Function.update_self] at hjb
          by_cases hk : k = j
          · exact hk.symm
          · rw [Function.update_of_ne hk] at hkb
            exact ((hself b hjb).2.2 k hkb).symm
        · rw [Function.update_of_ne hj] at hjb
          by_cases hk : k = i
          · subst hk
            rw [Function.update_self] at hkb
            exact (hself b hkb).2.2 j hjb
          · rw [Function.update_of_ne hk] at hkb
            exact h.apart j k b hjb hkb
      · intro b hb
        exact Nat.lt_of_lt_of_le (h.freed_after hpriv b hb) hpriv.buffers
  | reuse b bytes =>
      rw [Walks.step]
      split
      · rename_i hb
        refine ⟨?_, h.live, h.apart, h.freed⟩
        intro i
        refine (h.walker i).frame ?_
        intro x hx
        refine Function.update_of_ne ?_ _ _
        rintro rfl
        exact (h.live i x hx).2 hb
      · exact h

theorem walksInv_init : WalksInv v callers (Walks.init callers) fun i => budget (callers i).paths := by
  refine ⟨fun i => ⟨rfl, ?_, .idle (le_refl _)⟩, ?_, ?_, ?_⟩
  · rintro e ⟨⟩
  · rintro i b ⟨⟩
  · rintro i j b ⟨⟩
  · rintro b ⟨⟩

/-- A caller that has begun spends one step of its bound whenever it runs. -/
theorem spend_le {i : Nat} (due : Nat → Nat) (a : WalkAct) (hi : (s.walker i).pc ≠ .idle) :
    spend s due a i ≤ due i - [a].count (.run i) := by
  cases a with
  | run j =>
      by_cases hj : i = j
      · subst hj
        rw [spend, Function.update_self, if_neg hi, List.count_singleton_self]
      · rw [spend, Function.update_of_ne hj, List.count_singleton, if_neg]
        · exact le_refl _
        · simpa using fun h => hj h.symm
  | reuse b bytes => exact le_refl _

theorem spend_le_self (a : WalkAct) (i : Nat) : spend s due a i ≤ due i := by
  cases a with
  | run j =>
      by_cases hj : i = j
      · subst hj
        rw [spend, Function.update_self]
        split
        · exact le_refl _
        · exact Nat.sub_le _ _
      · rw [spend, Function.update_of_ne hj]
  | reuse b bytes => exact le_refl _

theorem step_not_idle {i : Nat} (a : WalkAct) (hi : (s.walker i).pc ≠ .idle) :
    ((s.step v callers a).walker i).pc ≠ .idle := by
  cases a with
  | run j =>
      by_cases hj : i = j
      · subst hj
        simp only [Walks.step, Function.update_self]
        exact walkStep_not_idle hi
      · simpa only [Walks.step, Function.update_of_ne hj] using hi
  | reuse b bytes =>
      rw [Walks.step]
      split
      · exact hi
      · exact hi

theorem WalksInv.run (h : WalksInv v callers s due) (hz : ∀ i, ∀ p ∈ (callers i).paths, 0 ∉ p)
    {as : List WalkAct} (hown : AllSteps (Walks.step v callers) OwnCursor s as) :
    ∃ due', WalksInv v callers (s.run v callers as) due' ∧ (∀ i, due' i ≤ due i) ∧
      ∀ i, (s.walker i).pc ≠ .idle → due' i ≤ due i - as.count (.run i) := by
  induction as generalizing s due with
  | nil => exact ⟨due, h, fun _ => le_refl _, fun _ _ => le_refl _⟩
  | cons a as ih =>
      obtain ⟨due', hinv, hle, hdue⟩ := ih (h.step hz hown.1) hown.2
      refine ⟨due', hinv, fun i => (hle i).trans (spend_le_self a i), fun i hi => ?_⟩
      have hstep := spend_le due a hi
      have hrest := hdue i (step_not_idle a hi)
      have hcount : (a :: as).count (.run i) = [a].count (.run i) + as.count (.run i) := by
        rw [← List.count_append, List.singleton_append]
      omega

/-- A caller without steps left has returned or followed a null pointer. -/
theorem WalkerInv.over {c : Caller} {bufs : Nat → List Byte} {w : Walker} (h : WalkerInv v c bufs w 0) :
    w.pc = .ended ∨ w.pc = .faulted := by
  obtain ⟨pc, rest, log, left⟩ := w
  have hpc := h.pc
  have hpos : ∀ rest, 0 < budget rest := fun rest => Nat.succ_pos _
  cases hpc with
  | idle hn => exact absurd hn (Nat.not_le.mpr (hpos _))
  | between hn => exact absurd hn (Nat.not_le.mpr (hpos _))
  | first _ _ hn => omega
  | lookup _ _ hn => omega
  | next _ _ hn => omega
  | ended => exact .inl rfl
  | faulted => exact .inr rfl

theorem WalkerInv.ended {c : Caller} {bufs : Nat → List Byte} {w : Walker} {n : Nat}
    (h : WalkerInv v c bufs w n) (hpc : w.pc = .ended) : w.log.map Prod.fst = c.paths := by
  obtain ⟨pc, rest, log, left⟩ := w
  subst hpc
  have hinv := h.pc
  cases hinv with
  | ended => simpa using h.paths

theorem WalkerInv.faulted {c : Caller} {bufs : Nat → List Byte} {w : Walker} {n : Nat}
    (h : WalkerInv v c bufs w n) (hpc : w.pc = .faulted) :
    ∃ path ∈ c.paths, pathToNode v c.parent path = none := by
  obtain ⟨pc, rest, log, left⟩ := w
  subst hpc
  have hinv := h.pc
  cases hinv with
  | @faulted path rest _ hsolo =>
      refine ⟨path, ?_, hsolo⟩
      rw [← h.paths]
      exact List.mem_append_right _ List.mem_cons_self

/-- If every `strtok(NULL, "/")` finds the cursor that its caller left, each walk
returns what it returns alone, and each caller that keeps running comes to its
end. -/
theorem walks_agree_of_own_cursor (hz : ∀ i, ∀ p ∈ (callers i).paths, 0 ∉ p) {as bs : List WalkAct}
    (hown : AllSteps (Walks.step v callers) OwnCursor (Walks.init callers) (as ++ bs)) (i : Nat) :
    let mid := (Walks.init callers).run v callers as
    let last := ((Walks.init callers).run v callers (as ++ bs)).walker i
    (∀ path r, (path, r) ∈ last.log → pathToNode v (callers i).parent path = some r) ∧
    (last.pc = .ended → last.log.map Prod.fst = (callers i).paths) ∧
    (last.pc = .faulted → ∃ path ∈ (callers i).paths, pathToNode v (callers i).parent path = none) ∧
    ((mid.walker i).pc ≠ .idle → budget (callers i).paths ≤ bs.count (.run i) →
      last.pc = .ended ∨ last.pc = .faulted) := by
  intro mid last
  obtain ⟨hown₁, hown₂⟩ := allSteps_append.mp hown
  obtain ⟨due₁, hmid, hle, -⟩ := walksInv_init.run hz hown₁
  obtain ⟨due₂, hlast, -, hdue⟩ := hmid.run hz hown₂
  have hrun : (Walks.init callers).run v callers (as ++ bs) =
      ((Walks.init callers).run v callers as).run v callers bs := List.foldl_append
  have hw := hlast.walker i
  rw [← hrun] at hw
  refine ⟨fun path r h => hw.log (path, r) h, hw.ended, hw.faulted, ?_⟩
  · intro hidle hcount
    have hzero : due₂ i = 0 := by
      have hi := hdue i hidle
      have hb : due₁ i ≤ budget (callers i).paths := hle i
      omega
    rw [hzero] at hw
    exact hw.over

end All

/-! ### The lock -/

/-- A walk between two of its `strtok` calls. -/
def Pc.inside : Pc → Bool
  | .lookup _ _ _ _ => true
  | .next _ _ _ => true
  | _ => false

/-- A caller under way holds `vfs_lock`, and the cursor is its own. -/
structure LockInv (s : Walks) : Prop where
  holder : ∀ i, (s.walker i).pc ≠ .idle → (s.walker i).pc ≠ .ended → s.shared.lock = some i
  cursor : ∀ i, (s.walker i).pc.inside = true → s.shared.tok.s = (s.walker i).left

section Lock
variable {v : Vfs} {i : Nat} {c : Caller} {sh : Shared} {w : Walker} {callers : Nat → Caller} {s : Walks}

theorem beginWalk_locked (v : Vfs) (c : Caller) (sh : Shared) (w : Walker) (path : List Byte) :
    (beginWalk v c sh w path).1.lock = sh.lock ∧ (beginWalk v c sh w path).2.pc.inside = false := by
  rw [beginWalk]
  split
  · exact ⟨rfl, rfl⟩
  · split
    · exact ⟨rfl, rfl⟩
    · split
      · exact ⟨rfl, rfl⟩
      · exact ⟨rfl, rfl⟩

/-- A step of a caller that takes the lock. -/
theorem walkStep_locked (hc : c.locks = true)
    (hlock : w.pc ≠ .idle → w.pc ≠ .ended → sh.lock = some i)
    (hcur : w.pc.inside = true → sh.tok.s = w.left) :
    walkStep v i c sh w = (sh, w) ∨
    (sh.lock = none ∨ sh.lock = some i) ∧
    ((walkStep v i c sh w).2.pc ≠ .ended → (walkStep v i c sh w).1.lock = some i) ∧
    ((walkStep v i c sh w).2.pc.inside = true →
      (walkStep v i c sh w).1.tok.s = (walkStep v i c sh w).2.left) := by
  obtain ⟨pc, rest, log, left⟩ := w
  cases pc with
  | idle =>
      simp only [walkStep, if_pos hc]
      split
      · rename_i hfree
        exact .inr ⟨.inl hfree, fun _ => rfl, Bool.noConfusion⟩
      · exact .inl rfl
  | between =>
      have hheld := hlock Pc.noConfusion Pc.noConfusion
      refine .inr ⟨.inr hheld, ?_⟩
      simp only [walkStep]
      cases rest with
      | nil => exact ⟨fun h => absurd rfl h, Bool.noConfusion⟩
      | cons path rest =>
          obtain ⟨hsame, hout⟩ := beginWalk_locked v c sh ⟨.between, path :: rest, log, left⟩ path
          simp only [hsame, hout]
          exact ⟨fun _ => hheld, Bool.noConfusion⟩
  | first b parent current =>
      have hheld := hlock Pc.noConfusion Pc.noConfusion
      refine .inr ⟨.inr hheld, fun _ => hheld, ?_⟩
      simp only [walkStep]
      split
      · exact fun _ => rfl
      · exact Bool.noConfusion
  | lookup b segment parent current =>
      have hheld := hlock Pc.noConfusion Pc.noConfusion
      refine .inr ⟨.inr hheld, ?_⟩
      simp only [walkStep]
      split
      · exact ⟨fun _ => hheld, Bool.noConfusion⟩
      · exact ⟨fun _ => hheld, fun _ => hcur rfl⟩
  | next b current parent =>
      have hheld := hlock Pc.noConfusion Pc.noConfusion
      refine .inr ⟨.inr hheld, ?_⟩
      simp only [walkStep]
      cases current with
      | none => exact ⟨fun _ => hheld, Bool.noConfusion⟩
      | some m =>
          refine ⟨fun _ => hheld, ?_⟩
          simp only
          split
          · exact fun _ => rfl
          · exact Bool.noConfusion
  | ended => exact .inl rfl
  | faulted => exact .inl rfl

theorem LockInv.step (h : LockInv s) (hlocks : ∀ i, (callers i).locks = true) (a : WalkAct) :
    LockInv (s.step v callers a) := by
  cases a with
  | run i =>
      rcases walkStep_locked (v := v) (hlocks i) (h.holder i) (h.cursor i) with hsame | ⟨hfree, hheld, hcur⟩
      · rw [Walks.step, hsame, Function.update_eq_self]
        exact h
      · -- The others wait or have ended, since none of them holds the lock.
        have hout : ∀ j, j ≠ i → (s.walker j).pc = .idle ∨ (s.walker j).pc = .ended := by
          intro j hj
          by_contra hno
          rw [not_or] at hno
          have hlock := h.holder j hno.1 hno.2
          rcases hfree with hfree | hfree
          · rw [hfree] at hlock
            cases hlock
          · rw [hfree] at hlock
            cases hlock
            exact hj rfl
        constructor
        · intro j hidle hended
          by_cases hj : j = i
          · subst hj
            simp only [Walks.step, Function.update_self] at hended
            exact hheld hended
          · simp only [Walks.step, Function.update_of_ne hj] at hidle hended
            rcases hout j hj with hpc | hpc
            · exact absurd hpc hidle
            · exact absurd hpc hended
        · intro j hin
          by_cases hj : j = i
          · subst hj
            simp only [Walks.step, Function.update_self] at hin ⊢
            exact hcur hin
          · simp only [Walks.step, Function.update_of_ne hj] at hin
            rcases hout j hj with hpc | hpc
            · rw [hpc] at hin
              cases hin
            · rw [hpc] at hin
              cases hin
  | reuse b bytes =>
      rw [Walks.step]
      split
      · exact ⟨h.holder, h.cursor⟩
      · exact h

/-- Callers that all take `vfs_lock` meet the condition in every interleaving. -/
theorem own_cursor_of_locked (hlocks : ∀ i, (callers i).locks = true) (as : List WalkAct) :
    AllSteps (Walks.step v callers) OwnCursor (Walks.init callers) as := by
  have hinit : LockInv (Walks.init callers) :=
    ⟨fun i hidle => absurd rfl hidle, fun i => Bool.noConfusion⟩
  generalize Walks.init callers = s at hinit
  induction as generalizing s with
  | nil => exact trivial
  | cons a as ih =>
      refine ⟨?_, ih _ (hinit.step hlocks a)⟩
      cases a with
      | reuse b bytes => exact trivial
      | run i =>
          intro hnext
          refine hinit.cursor i ?_
          cases hpc : (s.walker i).pc with
          | next b current parent => rfl
          | _ =>
              rw [hpc] at hnext
              cases hnext

end Lock

/-! ### Two walks -/

def sameCallers (_ : Nat) : Caller := ⟨none, .getNode pathA⟩

/-- Two callers that take turns. -/
def turns (n : Nat) : List WalkAct := (List.replicate n [.run 0, .run 1]).flatten

/-- Walks of one segment overlap without harm: each leaves the cursor null. -/
theorem single_segments_agree :
    AllSteps (Walks.step treeAB sameCallers) OwnCursor (Walks.init sameCallers) (turns 1 ++ turns 7) ∧
    (((Walks.init sameCallers).run treeAB sameCallers (turns 1 ++ turns 7)).walker 0).log =
      [(pathA, ⟨some 4, some 4⟩)] ∧
    pathToNode treeAB none pathA = some ⟨some 4, some 4⟩ := by
  have hown : AllSteps (Walks.step treeAB sameCallers) OwnCursor (Walks.init sameCallers)
      (turns 1 ++ turns 7) := by decide +kernel
  have hz : ∀ i, ∀ p ∈ (sameCallers i).paths, 0 ∉ p := fun i => by
    show ∀ p ∈ [pathA], 0 ∉ p
    decide
  have hlog : (((Walks.init sameCallers).run treeAB sameCallers (turns 1 ++ turns 7)).walker 0).log =
      [(pathA, ⟨some 4, some 4⟩)] := by decide +kernel
  have hagree := (walks_agree_of_own_cursor hz hown 0).1
  exact ⟨hown, hlog, hagree pathA _ (by rw [hlog]; exact List.mem_cons_self)⟩

def pathAB : List Byte := pathA ++ [slash] ++ pathB

/-- Caller 0 opens "a/b" under the lock, the others look up "b". -/
def twoCallers (i : Nat) : Caller :=
  if i = 0 then ⟨none, .vfsOpen pathAB⟩ else ⟨none, .getNode pathB⟩

/-- The walk of "b" runs between the first two `strtok` calls of the other. -/
def overlapping : List WalkAct :=
  [.run 0, .run 0, .run 0, .run 1, .run 1, .run 1, .run 1, .run 1, .run 0, .run 0]

/-- The walk of "a/b" ends at "a", although "/a/b" exists. -/
theorem overlapping_walk_stops_early :
    (((Walks.init twoCallers).run treeAB twoCallers overlapping).walker 0).log =
      [(pathAB, ⟨some 4, some 4⟩)] ∧
    pathToNode treeAB none pathAB = some ⟨some 4, some 7⟩ :=
  ⟨by decide +kernel, by decide +kernel⟩

end Flan.Fs
