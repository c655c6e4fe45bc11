import Mathlib.Logic.Relation

/-!
# Who waits for whom

`R a b` says that `a` waits for `b`.  A set is blocked when each of its
members waits for a member, and `R` is stuck when some nonempty set is.

* A relation that gets edges to one place `b` only does not become stuck
  when `b` did not reach the new waiters (`not_stuck_of_edges_to`).
* An edge to `b` from somewhere that `b` reaches makes it stuck
  (`stuck_of_edge`).
-/

namespace WaitGraph

open Relation

variable {α : Type*} {R R' : α → α → Prop} {S : Set α} {a b : α}

/-- Each member waits for a member. -/
def Blocked (R : α → α → Prop) (S : Set α) : Prop :=
  ∀ a ∈ S, ∃ b ∈ S, R a b

/-- Some of them wait for each other. -/
def Stuck (R : α → α → Prop) : Prop :=
  ∃ S : Set α, S.Nonempty ∧ Blocked R S

theorem Blocked.mono (h : Blocked R S)
    (himp : ∀ a ∈ S, ∀ b ∈ S, R a b → R' a b) : Blocked R' S := by
  intro a ha
  obtain ⟨b, hb, hab⟩ := h a ha
  exact ⟨b, hb, himp a ha b hb hab⟩

theorem Stuck.mono (h : Stuck R) (himp : ∀ a b, R a b → R' a b) : Stuck R' := by
  obtain ⟨S, hne, hS⟩ := h
  exact ⟨S, hne, hS.mono fun a _ b _ => himp a b⟩

/-- **New edges to one place.**  A set that they block without `b` was blocked
before, and so were the members that `b` reaches in one that has it. -/
theorem not_stuck_of_edges_to (b : α) (h : ¬ Stuck R)
    (hnew : ∀ a c, R' a c → R a c ∨ c = b ∧ ¬ ReflTransGen R b a) :
    ¬ Stuck R' := by
  intro hstuck
  obtain ⟨S, ⟨a, ha⟩, hS⟩ := hstuck
  apply h
  by_cases hb : b ∈ S
  · refine ⟨{x | x ∈ S ∧ ReflTransGen R b x}, ⟨b, hb, .refl⟩, ?_⟩
    intro x hx
    obtain ⟨hxS, hbx⟩ := hx
    obtain ⟨y, hyS, hxy⟩ := hS x hxS
    obtain hR | ⟨-, hnot⟩ := hnew x y hxy
    · exact ⟨y, ⟨hyS, hbx.tail hR⟩, hR⟩
    · exact absurd hbx hnot
  · refine ⟨S, ⟨a, ha⟩, ?_⟩
    intro x hxS
    obtain ⟨y, hyS, hxy⟩ := hS x hxS
    obtain hR | ⟨rfl, -⟩ := hnew x y hxy
    · exact ⟨y, hyS, hR⟩
    · exact absurd hyS hb

/-- **A cycle.**  What lies on the way from `b` to `a` is blocked by an edge
from `a` to `b`. -/
theorem stuck_of_edge (himp : ∀ x y, R x y → R' x y) (hab : R' a b)
    (hba : ReflTransGen R b a) : Stuck R' := by
  refine ⟨{x | ReflTransGen R b x ∧ ReflTransGen R x a}, ⟨b, .refl, hba⟩, ?_⟩
  intro x hx
  obtain ⟨hbx, hxa⟩ := hx
  obtain rfl | ⟨y, hxy, hya⟩ := hxa.cases_head
  · exact ⟨b, ⟨.refl, hba⟩, hab⟩
  · exact ⟨y, ⟨hbx.tail hxy, hya⟩, himp x y hxy⟩

end WaitGraph
