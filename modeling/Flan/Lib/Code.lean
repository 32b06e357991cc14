import Flan.Lib.Guarded

/-! Code as a list of operations. An operation acts on the shared state and comes to further
operations, which are done before the rest. -/
namespace Flan.Lib
variable {σ O C : Type*}

/-- Code that runs under a lock, one operation a step. -/
def codeBody (exec : σ → O → σ × List O) (code : C → List O) : Critical σ C (List O) Unit where
  enter := code
  step s
    | [] => (s, .inr ())
    | op :: ops => ((exec s op).1, .inl ((exec s op).2 ++ ops))

variable {exec : σ → O → σ × List O} {s t u : σ} {op : O} {ops ops' new : List O}

/-- The code runs to its end and leaves this state. -/
inductive Does (exec : σ → O → σ × List O) : σ → List O → σ → Prop
  | nil {s : σ} : Does exec s [] s
  | next {s t : σ} {op : O} {ops : List O} (h : Does exec (exec s op).1 ((exec s op).2 ++ ops) t) :
      Does exec s (op :: ops) t

theorem Does.append (h : Does exec s ops t) (h' : Does exec t ops' u) : Does exec s (ops ++ ops') u := by
  induction h with
  | nil => exact h'
  | next _ ih =>
      have := ih h'
      rw [List.append_assoc] at this
      exact .next this

theorem Does.cons (h : Does exec s [op] t) (h' : Does exec t ops u) : Does exec s (op :: ops) u := h.append h'

theorem Does.unfold (hexec : exec s op = (t, new)) (h : Does exec t new u) : Does exec s [op] u := by
  apply Does.next
  rw [hexec, List.append_nil]
  exact h

/-- An operation that comes to no others. -/
theorem Does.single (hexec : exec s op = (t, [])) : Does exec s [op] t := .unfold hexec .nil

theorem Does.returns (code : C → List O) (h : Does exec s ops t) : (codeBody exec code).Returns s ops (t, ()) := by
  induction h with
  | nil => exact .done rfl
  | next _ ih => exact .step rfl ih

/-- Straight code, done up to some operation. -/
theorem steps_straight {code : C → List O} (hnew : ∀ s op, (exec s op).2 = [])
    (h : (codeBody exec code).Steps s ops t ops') :
    ∃ done, ops = done ++ ops' ∧ t = done.foldl (fun s op => (exec s op).1) s := by
  induction h with
  | refl => exact ⟨[], rfl, rfl⟩
  | @tail t u _ l m _ hstep ih =>
      obtain ⟨done, rfl, rfl⟩ := ih
      cases l with
      | nil => cases hstep
      | cons op l =>
          obtain ⟨rfl, hl⟩ := Prod.mk.inj hstep
          obtain rfl := Sum.inl.inj hl
          refine ⟨done ++ [op], ?_, ?_⟩
          · rw [hnew, List.nil_append, List.append_assoc, List.singleton_append]
          · rw [List.foldl_append, List.foldl_cons, List.foldl_nil]

theorem does_straight (hnew : ∀ s op, (exec s op).2 = []) (s : σ) (ops : List O) :
    Does exec s ops (ops.foldl (fun s op => (exec s op).1) s) := by
  induction ops generalizing s with
  | nil => exact .nil
  | cons op ops ih =>
      apply Does.next
      rw [hnew, List.nil_append]
      exact ih _

/-! ### What every operation does, all of the code does -/

section Along
variable {P : O → Prop} {Q : σ → σ → Prop} {code : C → List O}

theorem step_along (hexec : ∀ s op, P op → Q s (exec s op).1 ∧ ∀ o ∈ (exec s op).2, P o)
    (hstep : (codeBody exec code).step s ops = (t, .inl ops')) (hops : ∀ o ∈ ops, P o) :
    Q s t ∧ ∀ o ∈ ops', P o := by
  cases ops with
  | nil => cases hstep
  | cons op ops =>
      obtain ⟨rfl, hnew⟩ := Prod.mk.inj hstep
      obtain rfl := Sum.inl.inj hnew
      obtain ⟨hop, hrest⟩ := List.forall_mem_cons.mp hops
      obtain ⟨hQ, hP⟩ := hexec s op hop
      exact ⟨hQ, List.forall_mem_append.mpr ⟨hP, hrest⟩⟩

theorem steps_along (hrefl : ∀ s, Q s s) (htrans : ∀ s t u, Q s t → Q t u → Q s u)
    (hexec : ∀ s op, P op → Q s (exec s op).1 ∧ ∀ o ∈ (exec s op).2, P o)
    (h : (codeBody exec code).Steps s ops t ops') (hops : ∀ o ∈ ops, P o) : Q s t ∧ ∀ o ∈ ops', P o := by
  induction h with
  | refl => exact ⟨hrefl _, hops⟩
  | tail _ hstep ih =>
      obtain ⟨hQ, hP⟩ := ih hops
      obtain ⟨hQ', hP'⟩ := step_along hexec hstep hP
      exact ⟨htrans _ _ _ hQ hQ', hP'⟩

theorem run_along (hrefl : ∀ s, Q s s) (htrans : ∀ s t u, Q s t → Q t u → Q s u)
    (hexec : ∀ s op, P op → Q s (exec s op).1 ∧ ∀ o ∈ (exec s op).2, P o) {fuel : Nat} {r : Unit}
    (h : (codeBody exec code).run fuel s ops = some (t, r)) (hops : ∀ o ∈ ops, P o) : Q s t := by
  induction fuel generalizing s ops with
  | zero => cases h
  | succ fuel ih =>
      cases ops with
      | nil =>
          obtain ⟨rfl, -⟩ := Prod.mk.inj (Option.some.inj h)
          exact hrefl s
      | cons op ops =>
          have hstep : (codeBody exec code).step s (op :: ops) = ((exec s op).1, .inl ((exec s op).2 ++ ops)) := rfl
          obtain ⟨hQ, hP⟩ := step_along hexec hstep hops
          exact htrans _ _ _ hQ (ih h hP)

end Along

end Flan.Lib
