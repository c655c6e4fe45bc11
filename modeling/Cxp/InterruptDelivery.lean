import Cxp.ProcessorUnits
import Mathlib.Data.Fin.VecNotation

/-!
# Entries left in an interprocessor queue (`sched.c`, `ipq.m`)

An entry of an interprocessor queue needs somebody who will take it out: an
interrupt that is pending, an adder who has still to send one, or the unit
itself on its way through one of the loops that remove entries.  These come to
their end when nothing is left, or when the next slot is claimed and not yet
filled, and then its adder has still to send (`Inv.covered_of_null`).

The loop of `handle_interprocessor_interrupt` can be left in another way:
`schedule0` switches to the process it makes ready, which enables interrupts,
and the entries behind stay where they are (`wakeup_stranded`).
-/

namespace Cxp

open Run

namespace IPQueue

variable {Pun Proc : Type}

/-- There is no entry. -/
def Empty (r : IPQueue Pun Proc) : Prop :=
  r.nextAdd = r.nextRem ∧ ∀ a, r.que a = none

/-- Every claim has been taken out. -/
def Drained (r : IPQueue Pun Proc) : Prop :=
  r.claimed.length = r.returned.length

variable {r : IPQueue Pun Proc}

theorem Inv.empty_of_drained (h : r.Inv) (hd : r.Drained) : r.Empty := by
  constructor
  · rw [h.nextAdd_eq, h.nextRem_eq, hd]
  · intro a
    cases hq : r.que a with
    | none => rfl
    | some p =>
        obtain ⟨k, ⟨hle, hlt⟩, -⟩ := h.stored a p hq
        unfold Drained at hd
        omega

/-- A removal changes neither the claims nor the adders. -/
theorem ipq_remove_adds (r : IPQueue Pun Proc) :
    r.ipq_remove.claimed = r.claimed ∧ r.ipq_remove.adder = r.adder := by
  unfold ipq_remove
  repeat' split
  all_goals exact ⟨rfl, rfl⟩

/-- **The end of a loop.**  When `ipq_remove` returns null, nothing is left, or
an adder has claimed the next slot and not filled it yet. -/
theorem Inv.covered_of_null (h : r.Inv) (hnull : r.result = some none) :
    r.ipq_remove.Drained ∨ ∃ u, r.ipq_remove.adder u ≠ .idle := by
  have htaking := h.taking
  unfold result at hnull
  cases hpc : r.remover with
  | idle => simp [hpc] at hnull
  | loadAdd a =>
      rw [hpc] at hnull htaking
      left
      have heq : r.nextAdd = a := by
        by_contra hne
        simp [hne] at hnull
      have hempty := h.lossless.empty_of_eq (heq.trans htaking)
      simpa [ipq_remove, hpc, heq, Drained] using hempty
  | exchange a =>
      rw [hpc] at hnull htaking
      obtain ⟨ha, hlt⟩ := htaking
      cases hq : r.que a with
      | some p => simp [hq] at hnull
      | none =>
          right
          rw [(ipq_remove_adds r).2]
          -- the oldest claim is neither in its slot nor being returned
          have hkept := h.kept r.returned.length _ ⟨Nat.le_refl _, hlt⟩
            (List.getElem?_eq_getElem hlt)
          rw [← h.nextRem_eq, ← ha, hq, hpc] at hkept
          obtain hstored | ⟨u, hu⟩ | hreturned := hkept
          · cases hstored
          · exact ⟨u, by simp [hu]⟩
          · cases hreturned
  | release a p =>
      rw [hpc] at hnull
      cases hnull

end IPQueue

namespace Units

variable {N U : Nat} (sys : Procs N U) (s : Units N U)

/-- Unit `u` is inside `ipq_add` on the queue of `π`. -/
def Inside (u π : Fin U) : Prop :=
  (s.ring π).adder u ≠ .idle ∨ ∃ handler, s.station u = .send π handler

instance (u π : Fin U) : Decidable (s.Inside u π) :=
  inferInstanceAs (Decidable (_ ∨ _))

/-- No wakeup is stranded: where interrupts are enabled and none is pending,
and nobody is inside `ipq_add`, the queue has no entry. -/
def Delivered : Prop :=
  ∀ π, (s.station π).enabled = true → s.pending π = false →
    (∀ u, ¬ s.Inside u π) → (s.ring π).Empty

/-- The entries of the queue of `π` need no loop that is under way. -/
def Covered (π : Fin U) : Prop :=
  (s.ring π).Drained ∨ s.pending π = true ∨ ∃ u, s.Inside u π

/-- The condition on a step.  Where the handler's `schedule0` switches to
another process, no entry is left, or another interrupt is to come, or that
process goes on to remove entries itself; and a claim finds the queue
nonfull. -/
def LeavesNone : UnitAct N U → Prop
  | .go π =>
      match s.station π with
      | .schedule proc => sys.pun proc = π → s.outranks sys π proc = true →
          (s.ring π).Empty ∨ s.pending π = true ∨ (∃ u, s.Inside u π) ∨
            (s.saved proc).drains = true
      | .add ρ _ => (s.ring ρ).CasNonfull (.run π)
      | _ => True
  | _ => True

/-- The invariant of runs that meet the condition. -/
structure Delivers : Prop where
  rings : ∀ π, (s.ring π).Inv
  covered : ∀ π, s.Covered π ∨ (s.station π).drains = true

variable {sys : Procs N U} {s t : Units N U} {π ρ : Fin U}

theorem Delivers.delivered (h : s.Delivers) : s.Delivered := by
  intro π hen hpending hinside
  obtain hcov | hdrains := h.covered π
  · apply (h.rings π).empty_of_drained
    obtain hd | hp | ⟨u, hu⟩ := hcov
    · exact hd
    · rw [hpending] at hp
      cases hp
    · exact absurd hu (hinside u)
  · cases hst : s.station π <;> simp [hst, Station.enabled, Station.drains] at hen hdrains

theorem delivers_init (sys : Procs N U) : (init sys).Delivers := by
  refine ⟨fun _ => IPQueue.inv_init, ?_⟩
  intro π
  exact Or.inl (Or.inl rfl)

/-- What covers a queue does not go away by what happens elsewhere. -/
theorem Covered.frame (h : s.Covered ρ) (hring : t.ring ρ = s.ring ρ)
    (hpending : s.pending ρ = true → t.pending ρ = true)
    (hsend : ∀ u handler, s.station u = .send ρ handler →
      t.pending ρ = true ∨ t.station u = .send ρ handler) : t.Covered ρ := by
  obtain hd | hp | ⟨u, hu | ⟨handler, hu⟩⟩ := h
  · left
    rw [hring]
    exact hd
  · exact Or.inr (Or.inl (hpending hp))
  · refine Or.inr (Or.inr ⟨u, Or.inl ?_⟩)
    rw [hring]
    exact hu
  · obtain hp | hst := hsend u handler hu
    · exact Or.inr (Or.inl hp)
    · exact Or.inr (Or.inr ⟨u, Or.inr ⟨handler, hst⟩⟩)

/-- A unit goes on, and no ring changes: the entries of its own queue stay
covered, or it is on its way through a loop. -/
theorem Delivers.moves (h : s.Delivers) (hring : t.ring = s.ring)
    (hpending : t.pending = s.pending)
    (hsend : ∀ ρ handler, s.station π ≠ .send ρ handler)
    (hothers : ∀ ρ, ρ ≠ π → t.station ρ = s.station ρ)
    (hdrains : (s.station π).drains = true →
      s.Covered π ∨ (t.station π).drains = true) : t.Delivers := by
  have hkeeps : ∀ ρ, s.Covered ρ → t.Covered ρ := by
    intro ρ hcov
    apply hcov.frame (congrFun hring ρ)
    · rw [hpending]
      exact id
    · intro u handler hu
      by_cases hup : u = π
      · rw [hup] at hu
        exact absurd hu (hsend ρ handler)
      · exact Or.inr ((hothers u hup).trans hu)
  refine ⟨fun ρ => hring ▸ h.rings ρ, ?_⟩
  intro ρ
  obtain hcov | hd := h.covered ρ
  · exact Or.inl (hkeeps ρ hcov)
  · by_cases hρ : ρ = π
    · subst hρ
      exact (hdrains hd).imp_left (hkeeps ρ)
    · rw [hothers ρ hρ]
      exact Or.inr hd

/-- A unit that does not remove entries goes on. -/
theorem Delivers.goto (h : s.Delivers) (hst : (s.station π).drains = false)
    (hsend : ∀ ρ handler, s.station π ≠ .send ρ handler) {station : Station N U} :
    (s.goto π station).Delivers := by
  refine h.moves rfl rfl hsend ?_ ?_
  · intro ρ hρ
    simp [Units.goto, hρ]
  · intro hd
    rw [hst] at hd
    cases hd

/-- What the callers of `take` do changes the station of the unit only. -/
theorem taken_some {taker : Taker} (h : s.taken sys π taker = some t) :
    t.ring = s.ring ∧ t.pending = s.pending ∧
      ∃ station, t.station = Function.update s.station π station := by
  cases taker with
  | relinquish =>
      simp only [taken] at h
      split at h
      · cases h
      · obtain ⟨-, rfl⟩ := dispatch_some h
        exact ⟨rfl, rfl, _, rfl⟩
  | yield =>
      simp only [taken] at h
      split at h
      · obtain ⟨-, rfl⟩ := dispatch_some h
        exact ⟨rfl, rfl, _, rfl⟩
      · cases h
        exact ⟨rfl, rfl, _, rfl⟩
  | preempt =>
      simp only [taken] at h
      split at h
      · cases h
      · obtain ⟨-, rfl⟩ := dispatch_some h
        exact ⟨rfl, rfl, _, rfl⟩
  | terminate =>
      simp only [taken] at h
      split at h
      · cases h
      · obtain ⟨-, rfl⟩ := dispatch_some h
        exact ⟨rfl, rfl, _, rfl⟩

/-- An operation of an adder, which leaves it in `ipq_add` or about to send. -/
theorem Delivers.adds (h : s.Delivers) {r : IPQueue (Fin U) (Fin N)}
    (hinv : r.Inv) (hring : t.ring = Function.update s.ring ρ r)
    (hpending : t.pending = s.pending) (hinside : t.Inside π ρ)
    (hsend : ∀ σ handler, s.station π ≠ .send σ handler)
    (hothers : ∀ σ, σ ≠ π → t.station σ = s.station σ)
    (hdrains : (s.station π).drains = true → (t.station π).drains = true) :
    t.Delivers := by
  constructor
  · intro σ
    rw [hring]
    by_cases hσ : σ = ρ
    · subst hσ
      rwa [Function.update_self]
    · rw [Function.update_of_ne hσ]
      exact h.rings σ
  · intro σ
    by_cases hσ : σ = ρ
    · subst hσ
      exact Or.inl (Or.inr (Or.inr ⟨π, hinside⟩))
    · obtain hcov | hd := h.covered σ
      · left
        apply hcov.frame
        · rw [hring, Function.update_of_ne hσ]
        · rw [hpending]
          exact id
        · intro u handler hu
          by_cases hup : u = π
          · rw [hup] at hu
            exact absurd hu (hsend σ handler)
          · exact Or.inr ((hothers u hup).trans hu)
      · right
        by_cases hσπ : σ = π
        · subst hσπ
          exact hdrains hd
        · rw [hothers σ hσπ]
          exact hd

/-- `schedule0`: where it switches to another process from a loop, the entries
left are covered, or that process is in a loop itself. -/
theorem Delivers.schedule0 (h : s.Delivers) {proc : Fin N} {handler : Bool}
    (hloop : (s.station π).drains = true → handler = true ∧
      (sys.pun proc = π → s.outranks sys π proc = true →
        s.Covered π ∨ (s.saved proc).drains = true))
    (hsend : ∀ ρ handler, s.station π ≠ .send ρ handler)
    (hstep : s.schedule0 sys π proc handler = some t) : t.Delivers := by
  unfold Units.schedule0 at hstep
  by_cases hpun : sys.pun proc = π
  · rw [if_pos hpun] at hstep
    simp only at hstep
    split at hstep
    · cases hstep
      refine h.moves (π := π) rfl rfl hsend ?_ ?_
      · intro ρ hρ
        simp [Units.goto, enqueue0, hρ]
      · intro hd
        right
        simp [Units.goto, (hloop hd).1, Station.back, Station.drains]
    · rename_i hle
      obtain ⟨-, rfl⟩ := dispatch_some hstep
      refine h.moves (π := π) rfl rfl hsend ?_ ?_
      · intro ρ hρ
        simp [Units.goto, save, enqueue0, hρ]
      · intro hd
        have hout : s.outranks sys π proc = true := by
          unfold outranks
          rw [pri_gt_iff_not_le]
          simpa using hle
        apply ((hloop hd).2 hpun hout).imp_right
        intro hsaved
        simp only [Units.goto, Function.update_self]
        by_cases hcurr : proc = s.current π
        · rw [hcurr]
          simp [save, enqueue0, (hloop hd).1, Station.back, Station.drains]
        · simpa [save, enqueue0, hcurr] using hsaved
  · rw [if_neg hpun] at hstep
    simp only at hstep
    obtain ⟨r, hr, rfl⟩ := Option.map_eq_some_iff.mp hstep
    have hinv := (h.rings (sys.pun proc)).step (by trivial) hr
    refine h.adds (π := π) (ρ := sys.pun proc) hinv rfl rfl ?_ hsend ?_ ?_
    · left
      simp only [Units.goto, onRing, Function.update_self]
      obtain ⟨-, hr⟩ := Option.ite_none_right_eq_some.mp hr
      cases hr
      simp
    · intro ρ hρ
      simp [Units.goto, onRing, hρ]
    · intro hd
      simp [Units.goto, (hloop hd).1, Station.drains]

/-- One operation of `ipq_remove`.  Its unit is in a loop; when the operation
ends the loop, what is left is covered. -/
theorem Delivers.removes (h : s.Delivers) (hdrains : (s.station π).drains = true) :
    (s.onRing π (s.ring π).ipq_remove).Delivers ∧
      ((s.ring π).result = some none →
        (s.onRing π (s.ring π).ipq_remove).Covered π) := by
  have hring : (s.onRing π (s.ring π).ipq_remove).ring π = (s.ring π).ipq_remove := by
    simp [onRing]
  refine ⟨⟨?_, ?_⟩, ?_⟩
  · intro ρ
    by_cases hρ : ρ = π
    · subst hρ
      rw [hring]
      exact (h.rings ρ).remove
    · simpa [onRing, hρ] using h.rings ρ
  · intro ρ
    by_cases hρ : ρ = π
    · subst hρ
      exact Or.inr hdrains
    · apply (h.covered ρ).imp_left
      intro hcov
      apply hcov.frame
      · simp [onRing, hρ]
      · exact id
      · intro u handler hu
        exact Or.inr hu
  · intro hnull
    obtain hd | ⟨u, hu⟩ := (h.rings π).covered_of_null hnull
    · left
      rw [hring]
      exact hd
    · refine Or.inr (Or.inr ⟨u, Or.inl ?_⟩)
      rw [hring]
      exact hu

/-- The sending of an interrupt. -/
theorem Delivers.sends (h : s.Delivers) {handler : Bool}
    (hst : s.station π = .send ρ handler) :
    ({ s with
      pending := Function.update s.pending ρ true }.goto π (.back handler)).Delivers := by
  refine ⟨h.rings, ?_⟩
  intro σ
  by_cases hσ : σ = ρ
  · subst hσ
    left; right; left
    simp [Units.goto]
  · obtain hcov | hd := h.covered σ
    · left
      refine hcov.frame rfl ?_ ?_
      · simp [Units.goto, hσ]
      · intro u handler' hu
        right
        have hup : u ≠ π := by
          intro hup
          rw [hup, hst] at hu
          cases hu
          exact hσ rfl
        simpa [Units.goto, hup] using hu
    · right
      by_cases hσπ : σ = π
      · subst hσπ
        rw [hst] at hd
        simp only [Station.drains] at hd
        simp [Units.goto, hd, Station.back, Station.drains]
      · simpa [Units.goto, hσπ] using hd

/-- The next step of a unit in what it is in. -/
theorem Delivers.go (h : s.Delivers) (hC : s.LeavesNone sys (.go π))
    (hstep : s.go sys π = some t) : t.Delivers := by
  unfold Units.go at hstep
  cases hst : s.station π with
  | user =>
      rw [hst] at hstep
      cases hstep
  | blocking =>
      rw [hst] at hstep
      cases hstep
      exact h.goto (by simp [hst, Station.drains]) (by simp [hst])
  | add ρ handler =>
      rw [hst] at hstep
      obtain ⟨r, hr, rfl⟩ := Option.map_eq_some_iff.mp hstep
      have hcas : (s.ring ρ).CasNonfull (.run π) := by
        simpa [LeavesNone, hst] using hC
      have hinv : r.Inv := (h.rings ρ).step (show (s.ring ρ).CasNonfull (.run π) from hcas) hr
      simp only
      split
      · -- the store has been made
        refine h.adds (π := π) (ρ := ρ) hinv rfl rfl ?_ (by simp [hst]) ?_ ?_
        · right
          exact ⟨handler, by simp [Units.goto]⟩
        · intro σ hσ
          simp [Units.goto, onRing, hσ]
        · intro hd
          rw [hst] at hd
          simpa [Units.goto, Station.drains] using hd
      · rename_i hbusy
        refine h.adds (π := π) (ρ := ρ) hinv rfl rfl ?_ (by simp [hst]) ?_ id
        · left
          simpa [onRing] using hbusy
        · intro σ hσ
          rfl
  | send ρ handler =>
      rw [hst] at hstep
      cases hstep
      exact h.sends hst
  | take taker =>
      rw [hst] at hstep
      obtain ⟨hrem, hnull⟩ := h.removes (π := π) (by simp [hst, Station.drains])
      simp only at hstep
      split at hstep
      · cases hstep
        exact hrem
      · rename_i hres
        obtain ⟨h1, h2, station, h3⟩ := taken_some hstep
        refine hrem.moves (π := π) h1 h2 (by simp [onRing, hst]) ?_ ?_
        · intro ρ hρ
          rw [h3, Function.update_of_ne hρ]
        · intro _
          exact Or.inl (hnull hres)
      · cases hstep
        refine hrem.moves (π := π) rfl rfl (by simp [onRing, hst]) ?_ Or.inr
        intro ρ _
        rfl
  | enable =>
      rw [hst] at hstep
      cases hstep
      exact h.goto (by simp [hst, Station.drains]) (by simp [hst])
  | loop =>
      rw [hst] at hstep
      obtain ⟨hrem, hnull⟩ := h.removes (π := π) (by simp [hst, Station.drains])
      simp only at hstep
      split at hstep
      · cases hstep
        exact hrem
      · rename_i hres
        cases hstep
        refine hrem.moves (π := π) rfl rfl (by simp [onRing, hst]) ?_ ?_
        · intro ρ hρ
          simp [Units.goto, hρ]
        · intro _
          exact Or.inl (hnull hres)
      · cases hstep
        refine hrem.moves (π := π) rfl rfl (by simp [onRing, hst]) ?_ ?_
        · intro ρ hρ
          simp [Units.goto, hρ]
        · intro _
          right
          simp [Units.goto, Station.drains]
  | schedule proc =>
      rw [hst] at hstep
      refine h.schedule0 ?_ (by simp [hst]) hstep
      intro _
      refine ⟨rfl, ?_⟩
      intro hpun hout
      simp only [LeavesNone, hst] at hC
      obtain hempty | hp | hinside | hsaved := hC hpun hout
      · left; left
        exact (h.rings π).lossless.empty_of_eq hempty.1
      · exact Or.inl (Or.inr (Or.inl hp))
      · exact Or.inl (Or.inr (Or.inr hinside))
      · exact Or.inr hsaved
  | handling =>
      rw [hst] at hstep
      cases hstep
      exact h.goto (by simp [hst, Station.drains]) (by simp [hst])
  | preempt =>
      rw [hst] at hstep
      cases hstep
      exact h.goto (by simp [hst, Station.drains]) (by simp [hst])
  | exit =>
      rw [hst] at hstep
      cases hstep
      exact h.goto (by simp [hst, Station.drains]) (by simp [hst])

/-- A unit where interrupts are enabled is neither in a loop nor sending. -/
theorem station_of_enabled (hen : (s.station π).enabled = true) :
    (s.station π).drains = false ∧ ∀ ρ handler, s.station π ≠ .send ρ handler := by
  cases hst : s.station π <;> simp [hst, Station.enabled, Station.drains] at hen ⊢

/-- The unit enters a handler. -/
theorem Delivers.enters (h : s.Delivers) (hen : (s.station π).enabled = true) :
    (s.enter π .handling).Delivers := by
  obtain ⟨hdrains, hsend⟩ := station_of_enabled hen
  refine h.moves (π := π) rfl rfl hsend ?_ ?_
  · intro ρ hρ
    simp [enter, Units.goto, save, hρ]
  · intro hd
    rw [hdrains] at hd
    cases hd

/-- The unit takes the pending interrupt, and is on its way through the loop. -/
theorem Delivers.interprocessor (h : s.Delivers) (hen : (s.station π).enabled = true) :
    ({ s with pending := Function.update s.pending π false }.enter π .loop).Delivers := by
  obtain ⟨-, hsend⟩ := station_of_enabled hen
  refine ⟨h.rings, ?_⟩
  intro ρ
  by_cases hρ : ρ = π
  · subst hρ
    right
    simp [enter, Units.goto, Station.drains]
  · obtain hcov | hd := h.covered ρ
    · left
      refine hcov.frame rfl ?_ ?_
      · simp [enter, Units.goto, save, hρ]
      · intro u handler hu
        right
        have hup : u ≠ π := by
          intro hup
          rw [hup] at hu
          exact hsend ρ handler hu
        simpa [enter, Units.goto, save, hup] using hu
    · right
      simpa [enter, Units.goto, save, hρ] using hd

/-- **Every step that leaves no entry behind keeps the invariant.** -/
theorem Delivers.step (h : s.Delivers) {act : UnitAct N U}
    (hC : s.LeavesNone sys act) (hstep : s.step sys act = some t) : t.Delivers := by
  have hbusy : ∀ {π}, s.Busy sys π → (s.station π).drains = false ∧
      ∀ ρ handler, s.station π ≠ .send ρ handler := by
    intro π hb
    exact station_of_enabled (by rw [hb.1]; rfl)
  cases act with
  | schedule π proc =>
      obtain ⟨hg, hstep⟩ := Option.ite_none_right_eq_some.mp hstep
      have hw : (s.wake proc).Delivers :=
        h.moves (π := π) rfl rfl (hbusy hg.1).2 (fun _ _ => rfl) Or.inr
      refine hw.schedule0 (π := π) ?_ (hbusy hg.1).2 hstep
      intro hd
      rw [show ((s.wake proc).station π).drains = false from (hbusy hg.1).1] at hd
      cases hd
  | enqueue π proc =>
      obtain ⟨hg, hstep⟩ := Option.ite_none_right_eq_some.mp hstep
      cases hstep
      exact h.moves (π := π) rfl rfl (hbusy hg.1).2 (fun _ _ => rfl) Or.inr
  | block π =>
      obtain ⟨hg, hstep⟩ := Option.ite_none_right_eq_some.mp hstep
      cases hstep
      refine h.moves (π := π) rfl rfl (hbusy hg).2 ?_ ?_
      · intro ρ hρ
        simp [Units.goto, hρ]
      · intro hd
        rw [(hbusy hg).1] at hd
        cases hd
  | yield π =>
      obtain ⟨hg, hstep⟩ := Option.ite_none_right_eq_some.mp hstep
      cases hstep
      exact h.goto (hbusy hg).1 (hbusy hg).2
  | terminate π =>
      obtain ⟨hg, hstep⟩ := Option.ite_none_right_eq_some.mp hstep
      cases hstep
      exact h.goto (hbusy hg).1 (hbusy hg).2
  | interprocessor π =>
      obtain ⟨hg, hstep⟩ := Option.ite_none_right_eq_some.mp hstep
      cases hstep
      exact h.interprocessor hg.1
  | interrupt π =>
      obtain ⟨hen, hstep⟩ := Option.ite_none_right_eq_some.mp hstep
      cases hstep
      exact h.enters hen
  | ready π proc =>
      obtain ⟨hg, hstep⟩ := Option.ite_none_right_eq_some.mp hstep
      cases hstep
      refine h.moves (π := π) rfl rfl ?_ (fun _ _ => rfl) Or.inr
      rw [hg.1]
      intro ρ handler heq
      cases heq
  | go π => exact h.go hC hstep

end Units

variable {N U : Nat} (sys : Procs N U)

/-- **No wakeup is stranded** in runs in which the handler switches to another
process only when it leaves nothing behind that nobody comes for, and in which
the claims of `ipq_add` find the queue nonfull. -/
theorem wakeups_delivered {acts : List (UnitAct N U)}
    (hC : Along (Units.step sys) (Units.LeavesNone sys) (Units.init sys) acts) :
    Throughout (Units.step sys) Units.Delivered (Units.init sys) acts := by
  apply throughout_of_along (I := Units.Delivers) _ _ hC (Units.delivers_init sys)
  · intro s act t h hleaves hstep
    exact h.step hleaves hstep
  · intro s h
    exact h.delivered

/-- An initial and an idle process on unit 0, and an idle process and one of
priority 5 on unit 1. -/
def oneEntry : Procs 4 2 where
  pun := ![0, 0, 1, 1]
  pri := ![0, 0xfff, 0xfff, 5]
  initial := 0
  idler := ![1, 2]
  pri_initial := rfl
  pun_idler := by decide
  pri_idler := by decide

/-- The handler switches to the one process that has been readied. -/
theorem wakeups_delivered_one_entry :
    Throughout (Units.step oneEntry) Units.Delivered (Units.init oneEntry)
      [.schedule 0 3, .go 0, .go 0, .go 0, .go 0, .go 0, .go 0,
        .interprocessor 1, .go 1, .go 1, .go 1, .go 1, .go 1] := by
  apply wakeups_delivered
  refine ⟨trivial, ?_⟩
  intro _ hstep
  cases hstep
  iterate 2
    refine ⟨?_, ?_⟩
    · intro _ _ hpc
      cases hpc
    intro _ hstep
    cases hstep
  -- the claim finds the queue empty
  refine ⟨?_, ?_⟩
  · intro _ _ hpc _
    cases hpc
    decide
  intro _ hstep
  cases hstep
  refine ⟨?_, ?_⟩
  · intro _ _ hpc
    cases hpc
  intro _ hstep
  cases hstep
  iterate 7
    refine ⟨trivial, ?_⟩
    intro _ hstep
    cases hstep
  refine ⟨?_, ?_⟩
  · intro _ _
    left
    refine ⟨rfl, ?_⟩
    intro a
    cases a <;> rfl
  intro _ _
  trivial

/-- Two processes of unit 1, both of a higher priority than its idle process. -/
def twoEntries : Procs 5 2 where
  pun := ![0, 0, 1, 1, 1]
  pri := ![0, 0xfff, 0xfff, 5, 6]
  initial := 0
  idler := ![1, 2]
  pri_initial := rfl
  pun_idler := by decide
  pri_idler := by decide

/-- Unit 0 readies one after the other, and the two interrupts merge.  The
handler of unit 1 switches to the first process. -/
def mergedSends : List (UnitAct 5 2) :=
  [.schedule 0 3, .go 0, .go 0, .go 0, .go 0, .go 0, .go 0] ++
    [.schedule 0 4, .go 0, .go 0, .go 0, .go 0, .go 0, .go 0] ++
    [.interprocessor 1, .go 1, .go 1, .go 1, .go 1, .go 1]

/-- The second process is left in the queue, with interrupts enabled and none
to come. -/
theorem wakeup_stranded :
    ¬ ∀ acts : List (UnitAct 5 2),
      (exec (Units.step twoEntries) (Units.init twoEntries) acts).isSome →
      Throughout (Units.step twoEntries) Units.Delivered (Units.init twoEntries)
        acts := by
  intro hall
  have hdelivered := (hall mergedSends (by decide)).last rfl
  have hempty := hdelivered 1 (by decide) (by decide) (by decide)
  exact absurd hempty.1 (by decide)

end Cxp
