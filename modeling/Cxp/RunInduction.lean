import Mathlib.Data.Option.Basic
import Mathlib.Tactic.TypeStar

/-!
# Runs of a partial step function

A machine is given by `step : σ → α → Option σ`: from a state and an action
it gives the next state, or `none` when the action cannot be taken.  `exec`
runs a list of actions.  Two predicates speak about a whole run:

* `Along C` says that every step taken meets `C`, a condition on the state
  before the step and the action taken;
* `Throughout P` says that `P` holds in every state the run goes through.

`exec_invariant` packages the induction once: an invariant kept by the steps
that meet `C` holds wherever a run that meets `C` arrives.
`throughout_iff_along` is the two-sided form, for a condition that is exact.
`exec_simulates` is the rule for two machines, of which one follows what an
observer sees of the other (`trace`).
-/

namespace Run

variable {σ α τ β : Type*} (step : σ → α → Option σ)

/-- The state after a list of actions, `none` when one cannot be taken. -/
def exec : σ → List α → Option σ
  | s, [] => some s
  | s, a :: as => (step s a).bind fun t => exec t as

/-- Every step of the run meets `C` in the state it is taken from. -/
def Along (C : σ → α → Prop) : σ → List α → Prop
  | _, [] => True
  | s, a :: as => C s a ∧ ∀ t, step s a = some t → Along C t as

/-- `P` holds in every state the run goes through, the first included. -/
def Throughout (P : σ → Prop) : σ → List α → Prop
  | s, [] => P s
  | s, a :: as => P s ∧ ∀ t, step s a = some t → Throughout P t as

/-- What an observer sees of a run who sees `obs s a` of the step `a` from `s`. -/
def trace (obs : σ → α → List β) : σ → List α → List β
  | _, [] => []
  | s, a :: as => obs s a ++ ((step s a).map fun t => trace obs t as).getD []

/-- A state is reachable when some run arrives in it. -/
def Reachable (s t : σ) : Prop :=
  ∃ as, exec step s as = some t

variable {step}

theorem exec_cons {s u : σ} {a : α} {as : List α}
    (h : exec step s (a :: as) = some u) :
    ∃ t, step s a = some t ∧ exec step t as = some u :=
  Option.bind_eq_some_iff.mp h

theorem exec_append {s t : σ} {as bs : List α}
    (h : exec step s as = some t) :
    exec step s (as ++ bs) = exec step t bs := by
  induction as generalizing s with
  | nil => cases h; rfl
  | cons a as ih =>
      obtain ⟨m, hm, hrest⟩ := exec_cons h
      simp [exec, hm, ih hrest]

/-- A run is unconstrained by the condition that is always met. -/
theorem along_true (s : σ) (as : List α) :
    Along step (fun _ _ => True) s as := by
  induction as generalizing s with
  | nil => trivial
  | cons a as ih => exact ⟨trivial, fun t _ => ih t⟩

/-- A condition on the actions alone is met by the runs of those that meet it. -/
theorem along_of_forall {C : σ → α → Prop} {s : σ} {as : List α} (h : ∀ s, ∀ a ∈ as, C s a) :
    Along step C s as := by
  induction as generalizing s with
  | nil => trivial
  | cons a as ih =>
      exact ⟨h s a (by simp), fun t _ => ih fun s b hb => h s b (by simp [hb])⟩

/-- What holds of the next state, if there is one, can be tested. -/
def decidableNext {P : σ → Prop} (s : σ) (a : α) (h : ∀ t, Decidable (P t)) :
    Decidable (∀ t, step s a = some t → P t) :=
  match step s a with
  | none => isTrue (by simp)
  | some t => @decidable_of_iff _ (P t) (by simp) (h t)

/-- Whether a condition that can be tested is met all along. -/
instance Along.decidable {C : σ → α → Prop} [∀ s a, Decidable (C s a)] :
    ∀ s as, Decidable (Along step C s as)
  | _, [] => isTrue trivial
  | s, a :: as =>
      @instDecidableAnd _ _ inferInstance (decidableNext s a fun t => Along.decidable t as)

instance Throughout.decidable {P : σ → Prop} [∀ s, Decidable (P s)] :
    ∀ s as, Decidable (Throughout step P s as)
  | s, [] => inferInstanceAs (Decidable (P s))
  | s, a :: as =>
      @instDecidableAnd _ _ inferInstance (decidableNext s a fun t => Throughout.decidable t as)

/-- A condition that an invariant implies is met all along. -/
theorem along_of_invariant {I : σ → Prop} {C : σ → α → Prop}
    (hstep : ∀ s a t, I s → step s a = some t → I t) (hC : ∀ s a, I s → C s a)
    {s : σ} (as : List α) (hs : I s) : Along step C s as := by
  induction as generalizing s with
  | nil => trivial
  | cons a as ih => exact ⟨hC s a hs, fun t ht => ih (hstep s a t hs ht)⟩

/-- **The invariant rule.**  What the steps meeting `C` preserve holds at
the end of every run whose steps all meet `C`. -/
theorem exec_invariant {I : σ → Prop} {C : σ → α → Prop}
    (hstep : ∀ s a t, I s → C s a → step s a = some t → I t)
    {s t : σ} {as : List α}
    (hrun : exec step s as = some t) (hC : Along step C s as) (hs : I s) :
    I t := by
  induction as generalizing s with
  | nil => cases hrun; exact hs
  | cons a as ih =>
      obtain ⟨m, hm, hrest⟩ := exec_cons hrun
      exact ih hrest (hC.2 m hm) (hstep s a m hs hC.1 hm)

/-- The invariant rule for a machine whose every step preserves `I`. -/
theorem Reachable.invariant {I : σ → Prop}
    (hstep : ∀ s a t, I s → step s a = some t → I t)
    {s t : σ} (hreach : Reachable step s t) (hs : I s) : I t := by
  obtain ⟨as, hrun⟩ := hreach
  exact exec_invariant (C := fun _ _ => True)
    (fun s a t hI _ h => hstep s a t hI h) hrun (along_true s as) hs

/-- An invariant that implies `P` gives `P` in every state of the run. -/
theorem throughout_of_along {I P : σ → Prop} {C : σ → α → Prop}
    (hstep : ∀ s a t, I s → C s a → step s a = some t → I t)
    (hP : ∀ s, I s → P s)
    {s : σ} {as : List α} (hC : Along step C s as) (hs : I s) :
    Throughout step P s as := by
  induction as generalizing s with
  | nil => exact hP s hs
  | cons a as ih =>
      exact ⟨hP s hs, fun t ht => ih (hC.2 t ht) (hstep s a t hs hC.1 ht)⟩

/-- **The exact form.**  If moreover a step that fails `C` always leaves `P`,
then the runs through which `P` holds are exactly those that meet `C`. -/
theorem throughout_iff_along {I P : σ → Prop} {C : σ → α → Prop}
    (hstep : ∀ s a t, I s → C s a → step s a = some t → I t)
    (hP : ∀ s, I s → P s)
    (hexact : ∀ s a t, I s → ¬ C s a → step s a = some t → ¬ P t)
    {s t : σ} {as : List α} (hrun : exec step s as = some t) (hs : I s) :
    Throughout step P s as ↔ Along step C s as := by
  refine ⟨?_, fun hC => throughout_of_along hstep hP hC hs⟩
  intro hthrough
  induction as generalizing s with
  | nil => trivial
  | cons a as ih =>
      obtain ⟨m, hm, hrest⟩ := exec_cons hrun
      have hPm : P m := by
        have hth := hthrough.2 m hm
        cases as with
        | nil => exact hth
        | cons b bs => exact hth.1
      have hCa : C s a := by
        by_contra hn
        exact hexact s a m hs hn hm hPm
      refine ⟨hCa, fun t' ht' => ?_⟩
      obtain rfl : m = t' := Option.some.inj (hm.symm.trans ht')
      exact ih hrest (hstep s a m hs hCa hm) (hthrough.2 m hm)

/-- **The simulation rule.**  If the observations of one step take every related
abstract state to a related one, then those of a whole run do. -/
theorem exec_simulates {stepA : τ → β → Option τ} {R : σ → τ → Prop}
    {obs : σ → α → List β}
    (hstep : ∀ s q a t, R s q → step s a = some t →
      ∃ r, exec stepA q (obs s a) = some r ∧ R t r)
    {s t : σ} {q : τ} {as : List α} (hR : R s q) (hrun : exec step s as = some t) :
    ∃ r, exec stepA q (trace step obs s as) = some r ∧ R t r := by
  induction as generalizing s q with
  | nil =>
      cases hrun
      exact ⟨q, rfl, hR⟩
  | cons a as ih =>
      obtain ⟨m, hm, hrest⟩ := exec_cons hrun
      obtain ⟨r, hr, hRm⟩ := hstep s q a m hR hm
      obtain ⟨r', hr', hRt⟩ := ih hRm hrest
      refine ⟨r', ?_, hRt⟩
      rw [trace, hm, exec_append hr]
      exact hr'

/-- What holds throughout a run holds in its last state. -/
theorem Throughout.last {P : σ → Prop} {s t : σ} {as : List α}
    (h : Throughout step P s as) (hrun : exec step s as = some t) : P t := by
  induction as generalizing s with
  | nil => cases hrun; exact h
  | cons a as ih =>
      obtain ⟨m, hm, hrest⟩ := exec_cons hrun
      exact ih (h.2 m hm) hrest

/-- The last state may be evaluated by a test. -/
theorem Throughout.last_any {P : σ → Prop} {p : σ → Bool} {s : σ} {as : List α}
    (h : Throughout step P s as) (hrun : (exec step s as).any p = true) :
    ∃ t, P t ∧ p t = true := by
  cases ht : exec step s as with
  | none =>
      rw [ht] at hrun
      cases hrun
  | some t =>
      rw [ht] at hrun
      exact ⟨t, h.last ht, hrun⟩

-- the sizes of the machines that concrete runs are about
instance (priority := high) neZero_one : @NeZero Nat Zero.ofOfNat0 1 := ⟨Nat.one_ne_zero⟩

instance (priority := high) neZero_two : @NeZero Nat Zero.ofOfNat0 2 := ⟨Nat.succ_ne_zero 1⟩

instance (priority := high) neZero_three : @NeZero Nat Zero.ofOfNat0 3 := ⟨Nat.succ_ne_zero 2⟩

instance (priority := high) neZero_four : @NeZero Nat Zero.ofOfNat0 4 := ⟨Nat.succ_ne_zero 3⟩

instance (priority := high) neZero_five : @NeZero Nat Zero.ofOfNat0 5 := ⟨Nat.succ_ne_zero 4⟩

instance (priority := high) neZero_six : @NeZero Nat Zero.ofOfNat0 6 := ⟨Nat.succ_ne_zero 5⟩

instance (priority := high) neZero_fourteen : @NeZero Nat Zero.ofOfNat0 14 := ⟨Nat.succ_ne_zero 13⟩

end Run
