import Mathlib.Logic.Relation

/-! Runs of deterministic systems under a list of inputs, and the rule that
pins down exactly which inputs keep a state property. -/
namespace Flan.Lib
variable {σ ι : Type*} {step : σ → ι → σ} {P Inv : σ → Prop} {C V : σ → ι → Prop}

/-- The property holds at the start and after every input. -/
def AllStates (step : σ → ι → σ) (P : σ → Prop) : σ → List ι → Prop
  | s, [] => P s
  | s, i :: is => P s ∧ AllStates step P (step s i) is

theorem AllStates.head {s : σ} {is : List ι} (h : AllStates step P s is) : P s := by
  cases is with
  | nil => exact h
  | cons i is => exact h.1

/-- Every input meets the condition in the state it is given to. -/
def AllSteps (step : σ → ι → σ) (C : σ → ι → Prop) : σ → List ι → Prop
  | _, [] => True
  | s, i :: is => C s i ∧ AllSteps step C (step s i) is

theorem allSteps_append {s : σ} {is js : List ι} :
    AllSteps step C s (is ++ js) ↔ AllSteps step C s is ∧ AllSteps step C (is.foldl step s) js := by
  induction is generalizing s with
  | nil => exact ⟨fun h => ⟨trivial, h⟩, fun h => h.2⟩
  | cons i is ih => exact (and_congr_right fun _ => ih).trans and_assoc.symm

instance AllSteps.decidable [∀ s i, Decidable (C s i)] : (s : σ) → (is : List ι) →
    Decidable (AllSteps step C s is)
  | _, [] => .isTrue trivial
  | s, i :: is => @instDecidableAnd (C s i) _ _ (AllSteps.decidable (step s i) is)

theorem allSteps_of_inv (hkeep : ∀ s i, Inv s → Inv (step s i)) (hC : ∀ s i, Inv s → C s i) {s : σ}
    (hs : Inv s) (is : List ι) : AllSteps step C s is := by
  induction is generalizing s with
  | nil => trivial
  | cons i is ih => exact ⟨hC s i hs, ih (hkeep s i hs)⟩

theorem AllSteps.mono {D : σ → ι → Prop} (hkeep : ∀ s i, Inv s → Inv (step s i))
    (himp : ∀ s i, Inv s → C s i → D s i) {s : σ} {is : List ι} (hs : Inv s) (h : AllSteps step C s is) :
    AllSteps step D s is := by
  induction is generalizing s with
  | nil => trivial
  | cons i is ih => exact ⟨himp s i hs h.1, ih (hkeep s i hs) h.2⟩

/-- If the invariant gives the property, the inputs that meet the condition keep
the invariant, and an input that misses it breaks the property at once, then
the property holds along a run exactly when every input meets the condition. -/
theorem allStates_iff_allSteps (hP : ∀ s, Inv s → P s)
    (hkeep : ∀ s i, Inv s → V s i → C s i → Inv (step s i))
    (hbreak : ∀ s i, Inv s → V s i → P (step s i) → C s i)
    {s : σ} {is : List ι} (hs : Inv s) (hv : AllSteps step V s is) :
    AllStates step P s is ↔ AllSteps step C s is := by
  induction is generalizing s with
  | nil => exact ⟨fun _ => trivial, fun _ => hP s hs⟩
  | cons i is ih =>
      constructor
      · rintro ⟨_, hrest⟩
        have hc := hbreak s i hs hv.1 hrest.head
        exact ⟨hc, (ih (hkeep s i hs hv.1 hc) hv.2).mp hrest⟩
      · rintro ⟨hc, hrest⟩
        exact ⟨hP s hs, (ih (hkeep s i hs hv.1 hc) hv.2).mpr hrest⟩

/-- An invariant of every step holds in every state reached. -/
theorem reflTransGen_invariant {R : σ → σ → Prop} (hstep : ∀ s t, Inv s → R s t → Inv t)
    {s t : σ} (hs : Inv s) (h : Relation.ReflTransGen R s t) : Inv t := by
  induction h with
  | refl => exact hs
  | tail _ hlast ih => exact hstep _ _ ih hlast

/-- A run of a system whose steps are labelled, with the labels of its steps. -/
inductive Trace (R : σ → ι → σ → Prop) (s : σ) : List ι → σ → Prop
  | nil : Trace R s [] s
  | snoc {is : List ι} {i : ι} {t u : σ} (h : Trace R s is t) (hlast : R t i u) : Trace R s (is ++ [i]) u

theorem Trace.invariant {R : σ → ι → σ → Prop} (hstep : ∀ s i t, Inv s → R s i t → Inv t) {s t : σ} {is : List ι}
    (hs : Inv s) (h : Trace R s is t) : Inv t := by
  induction h with
  | nil => exact hs
  | snoc _ hlast ih => exact hstep _ _ _ ih hlast

/-- How many of the labels are of a kind. -/
def occurs (kind : ι → Bool) (is : List ι) : Nat := is.countP kind

theorem occurs_snoc (kind : ι → Bool) (is : List ι) (i : ι) :
    occurs kind (is ++ [i]) = occurs kind is + (kind i).toNat := by
  rw [occurs, List.countP_append, ← occurs, List.countP_singleton]
  cases kind i <;> rfl

end Flan.Lib
