import Cxp.Scheduler
import Mathlib.Data.Nat.Bitwise
import Mathlib.Tactic.IntervalCases

/-!
# The priorities of nested PRI PARs (`run.c`, `sched.h`)

A child of a prioritised construct gets the level of its parent plus one, and
its value lies behind those of its elder siblings by the gap of that level.

* `child_pris_eq` — what the loop of `par_pri` and `placed_par_pri` computes;
* `Fits.child` — a process that fits into the twelve bits of the value with all
  its descendants has children that do, each in a window of its own;
* `nested_priorities_isolated` — in every tree of processes whose constructs
  pass the checks, siblings are separated with all their descendants, nobody is
  above an ancestor, and nothing is lost in the packing.
-/

namespace Cxp

/-- The priorities that the loop of `par_pri` and `placed_par_pri` gives to the
next `n` children, from the variable `pri` on. -/
def child_pris (level delta : Nat) : Nat → Nat → List Nat
  | 0, _ => []
  | n + 1, pri => priority level pri :: child_pris level delta n (pri + delta)

/-- Which processes a process creates: the constructs that it runs one after the
other, and what each of their children does. -/
inductive Creation
  /-- it runs no construct any more -/
  | done
  /-- it runs a construct of `nc` children, and goes on -/
  | par (kind : ParKind) (nc : Nat) (child : Fin nc → Creation) (rest : Creation)

namespace Creation

/-- None of the constructs ends the program, the process having that priority. -/
def Passes : Creation → Nat → Prop
  | .done, _ => True
  | .par kind nc child rest, pri =>
      kind.accepts pri nc ∧ (∀ i, (child i).Passes (kind.child_pri pri i)) ∧ rest.Passes pri

/-- A process of priority `p` that is to do `c`, and in its tree the process of
priority `q`, itself or a descendant, at a moment when it is to do `d`. -/
inductive Under : Nat → Creation → Nat → Creation → Prop
  | self {p : Nat} {c : Creation} : Under p c p c
  | child {p q nc : Nat} {kind : ParKind} {child : Fin nc → Creation} {rest d : Creation}
      (i : Fin nc) (h : Under (kind.child_pri p i) (child i) q d) :
      Under p (.par kind nc child rest) q d
  | later {p q nc : Nat} {kind : ParKind} {child : Fin nc → Creation} {rest d : Creation}
      (h : Under p rest q d) : Under p (.par kind nc child rest) q d

end Creation

section Packing

variable {lvl val pri i : Nat}

theorem pri_value_eq (pri : Nat) : pri_value pri = pri % 2 ^ 12 :=
  Nat.and_two_pow_sub_one_eq_mod pri 12

theorem pri_level_eq (pri : Nat) : pri_level pri = pri / 2 ^ 13 :=
  Nat.shiftRight_eq_div_pow pri 13

/-- The two fields do not overlap. -/
theorem priority_eq (hlvl : lvl < 2 ^ 3) (val : Nat) :
    priority lvl val = lvl * 2 ^ 13 + val % 2 ^ 12 := by
  have hval : val % 2 ^ 12 < 2 ^ 13 :=
    (Nat.mod_lt val (by decide)).trans (by decide)
  have hor : lvl <<< 13 ||| val % 2 ^ 12 = lvl * 2 ^ 13 + val % 2 ^ 12 := by
    rw [← Nat.shiftLeft_add_eq_or_of_lt hval, Nat.shiftLeft_eq]
  rw [priority, pri_value_eq, hor]
  apply Nat.mod_eq_of_lt
  omega

/-- The level is read back. -/
theorem pri_level_priority (hlvl : lvl < 2 ^ 3) (val : Nat) :
    pri_level (priority lvl val) = lvl := by
  rw [pri_level_eq, priority_eq hlvl]
  omega

/-- So are the low-order twelve bits of the value. -/
theorem pri_value_priority (hlvl : lvl < 2 ^ 3) (val : Nat) :
    pri_value (priority lvl val) = pri_value val := by
  rw [pri_value_eq, pri_value_eq, priority_eq hlvl]
  omega

theorem pri_gt_iff (p q : Nat) : pri_gt p q = true ↔ pri_value p < pri_value q := by
  simp [pri_gt]

end Packing

section Loop

/-- The variable `pri` has grown by one gap for each child. -/
theorem child_pris_eq (level delta n pri : Nat) :
    child_pris level delta n pri =
      (List.range n).map fun i => priority level (pri + i * delta) := by
  induction n generalizing pri with
  | zero => rfl
  | succ n ih =>
      rw [child_pris, ih, List.range_succ_eq_map, List.map_cons, List.map_map]
      congr 1
      · rw [Nat.zero_mul, Nat.add_zero]
      · apply List.map_congr_left
        intro i _
        have hsum : pri + delta + i * delta = pri + (i + 1) * delta := by
          rw [Nat.succ_mul]
          omega
        simp only [Function.comp_apply, hsum]

/-- The `i`-th child of a prioritised construct has the priority of the `i`-th
round of the loop. -/
theorem child_pri_of_prioritised {kind : ParKind} (hkind : kind.prioritised) (pri n i : Nat)
    (hi : i < n) :
    (child_pris (pri_level pri + 1) (pri_delta (pri_level pri + 1)) n pri)[i]? =
      some (kind.child_pri pri i) := by
  rw [child_pris_eq, List.getElem?_map, List.getElem?_range hi, Option.map_some]
  simp only [ParKind.child_pri, hkind, if_true]

end Loop

section Windows

/-- The priorities of a process and all its descendants have room in the twelve
bits of the value, and the bit between value and level is not used. -/
structure Fits (pri : Nat) : Prop where
  level : pri_level pri ≤ PRI_LEVELS
  room : pri_value pri + pri_delta (pri_level pri) ≤ 2 ^ 12
  packed : priority (pri_level pri) pri = pri

variable {kind : ParKind} {pri nc i : Nat}

theorem fits_init : Fits INIT_PRI :=
  ⟨by decide, by decide, by decide⟩

/-- Eight gaps of a level make one of the level above. -/
theorem pri_delta_succ {lvl : Nat} (hlvl : lvl < PRI_LEVELS) :
    PRI_PROCS * pri_delta (lvl + 1) = pri_delta lvl := by
  unfold PRI_LEVELS at hlvl
  interval_cases lvl <;> rfl

theorem pri_delta_pos {lvl : Nat} (hlvl : lvl ≤ PRI_LEVELS) : 0 < pri_delta lvl := by
  unfold PRI_LEVELS at hlvl
  interval_cases lvl <;> decide

theorem accepts_prioritised (hkind : kind.prioritised) :
    kind.accepts pri nc ↔ nc ≤ PRI_PROCS ∧ pri_level pri < PRI_LEVELS := by
  simp [ParKind.accepts, hkind, Nat.succ_le_iff]

/-- The gaps of the elder siblings, and one's own, are within the parent's. -/
theorem gaps_le (hkind : kind.prioritised) (hacc : kind.accepts pri nc) (hi : i < nc) :
    (i + 1) * pri_delta (pri_level pri + 1) ≤ pri_delta (pri_level pri) := by
  obtain ⟨hnc, hlvl⟩ := (accepts_prioritised hkind).mp hacc
  calc (i + 1) * pri_delta (pri_level pri + 1)
      ≤ PRI_PROCS * pri_delta (pri_level pri + 1) := Nat.mul_le_mul_right _ (by omega)
    _ = pri_delta (pri_level pri) := pri_delta_succ hlvl

/-- **Packing.**  To add the gaps of the elder siblings to the priority of the
parent carries nothing into the level and does not wrap the value. -/
theorem no_carry (h : Fits pri) (hkind : kind.prioritised) (hacc : kind.accepts pri nc)
    (hi : i < nc) :
    let level := pri_level pri + 1
    let val := pri + i * pri_delta level
    pri_level val = pri_level pri ∧
      pri_value val = pri_value pri + i * pri_delta level ∧
      pri_level (priority level val) = level ∧
      pri_value (priority level val) = pri_value val := by
  intro level val
  obtain ⟨_, hlvl⟩ := (accepts_prioritised hkind).mp hacc
  have hlevel : level < 2 ^ 3 := by
    unfold PRI_LEVELS at hlvl
    omega
  have hgaps : i * pri_delta level + pri_delta level ≤ pri_delta (pri_level pri) := by
    rw [← Nat.succ_mul]
    exact gaps_le hkind hacc hi
  have hpos : 0 < pri_delta level := pri_delta_pos hlvl
  have hroom := h.room
  have hpacked := h.packed
  rw [priority_eq (by omega)] at hpacked
  rw [pri_value_eq] at hroom
  refine ⟨?_, ?_, pri_level_priority hlevel val, pri_value_priority hlevel val⟩
  · rw [pri_level_eq val]
    omega
  · rw [pri_value_eq, pri_value_eq]
    omega

theorem child_pri_plain (hkind : kind.prioritised = false) : kind.child_pri pri i = pri := by
  simp [ParKind.child_pri, hkind]

/-- The window of a child of a prioritised construct. -/
theorem child_window (h : Fits pri) (hkind : kind.prioritised) (hacc : kind.accepts pri nc)
    (hi : i < nc) :
    pri_level (kind.child_pri pri i) = pri_level pri + 1 ∧
      pri_value (kind.child_pri pri i) =
        pri_value pri + i * pri_delta (pri_level pri + 1) := by
  obtain ⟨_, hval, hlevel, hvalue⟩ := no_carry h hkind hacc hi
  simp only [ParKind.child_pri, hkind, if_true]
  exact ⟨hlevel, hvalue.trans hval⟩

/-- **One construct.**  The children of a process that fits, fit. -/
theorem Fits.child (h : Fits pri) (hacc : kind.accepts pri nc) (hi : i < nc) :
    Fits (kind.child_pri pri i) := by
  cases hkind : kind.prioritised with
  | false =>
      rw [child_pri_plain hkind]
      exact h
  | true =>
      obtain ⟨hlevel, hvalue⟩ := child_window h hkind hacc hi
      have hlvl := ((accepts_prioritised hkind).mp hacc).2
      have hgaps := gaps_le hkind hacc hi
      have hroom := h.room
      refine ⟨hlevel ▸ hlvl, ?_, ?_⟩
      · rw [hlevel, hvalue]
        rw [Nat.succ_mul] at hgaps
        omega
      · have hbits : pri_level pri + 1 < 2 ^ 3 := by
          unfold PRI_LEVELS at hlvl
          omega
        rw [hlevel, priority_eq hbits]
        simp only [ParKind.child_pri, hkind, if_true]
        rw [priority_eq hbits]
        omega

/-- A child and all that fits behind it is within the window of the parent. -/
theorem Fits.child_within (h : Fits pri) (hacc : kind.accepts pri nc) (hi : i < nc) :
    pri_value pri ≤ pri_value (kind.child_pri pri i) ∧
      pri_value (kind.child_pri pri i) + pri_delta (pri_level (kind.child_pri pri i)) ≤
        pri_value pri + pri_delta (pri_level pri) := by
  cases hkind : kind.prioritised with
  | false =>
      rw [child_pri_plain hkind]
      exact ⟨le_rfl, le_rfl⟩
  | true =>
      obtain ⟨hlevel, hvalue⟩ := child_window h hkind hacc hi
      have hgaps := gaps_le hkind hacc hi
      rw [hlevel, hvalue]
      rw [Nat.succ_mul] at hgaps
      omega

/-- A child has no higher priority than its parent. -/
theorem Fits.child_not_gt (h : Fits pri) (hacc : kind.accepts pri nc) (hi : i < nc) :
    pri_gt (kind.child_pri pri i) pri = false := by
  have hle := (h.child_within hacc hi).1
  rw [Bool.eq_false_iff, ne_eq, pri_gt_iff]
  omega

end Windows

section Trees

open Creation

variable {p q : Nat} {c d : Creation}

/-- **Whole trees.**  In the tree under a process that fits everyone fits, passes
its checks, and stays in the window of the process. -/
theorem Creation.Under.within (hu : Under p c q d) (hfits : Fits p) (hpass : c.Passes p) :
    Fits q ∧ d.Passes q ∧ pri_value p ≤ pri_value q ∧
      pri_value q + pri_delta (pri_level q) ≤ pri_value p + pri_delta (pri_level p) := by
  induction hu with
  | self => exact ⟨hfits, hpass, le_rfl, le_rfl⟩
  | child i _ ih =>
      obtain ⟨hacc, hchildren, _⟩ := hpass
      obtain ⟨hq, hd, hlow, hhigh⟩ := ih (hfits.child hacc i.isLt) (hchildren i)
      have hchild := hfits.child_within hacc i.isLt
      exact ⟨hq, hd, hchild.1.trans hlow, hhigh.trans hchild.2⟩
  | later _ ih =>
      obtain ⟨_, _, hrest⟩ := hpass
      exact ih hfits hrest

/-- Descendants are in the half-open window of the process. -/
theorem Creation.Under.lt_window (hu : Under p c q d) (hfits : Fits p) (hpass : c.Passes p) :
    pri_value q < pri_value p + pri_delta (pri_level p) := by
  obtain ⟨hq, -, -, hhigh⟩ := hu.within hfits hpass
  have hpos := pri_delta_pos hq.level
  omega

/-- **Isolation.**  For every tree of processes whose constructs pass the checks,
and every process in it at every moment:
no descendant has a higher priority, and all have their values in the window of
its level;
of two children of a construct that it runs, if prioritised, the elder one and
all its descendants have higher priorities than the younger one and all its
descendants; and the level and the value of a child are packed without a carry
or a wrap and read back unchanged. -/
theorem nested_priorities_isolated (c : Creation) (hpass : c.Passes INIT_PRI)
    {p : Nat} {d : Creation} (hp : Under INIT_PRI c p d) :
    (∀ q e, Under p d q e →
      pri_gt q p = false ∧ pri_value p ≤ pri_value q ∧
        pri_value q < pri_value p + pri_delta (pri_level p)) ∧
    ∀ kind nc child rest, d = .par kind nc child rest → kind.prioritised →
      (∀ i j : Fin nc, i < j → ∀ q e r f,
        Under (kind.child_pri p i) (child i) q e → Under (kind.child_pri p j) (child j) r f →
          pri_gt q r) ∧
      ∀ i : Fin nc,
        let level := pri_level p + 1
        let val := p + i * pri_delta level
        kind.child_pri p i = priority level val ∧
          pri_level val = pri_level p ∧
          pri_value val = pri_value p + i * pri_delta level ∧
          pri_level (priority level val) = level ∧
          pri_value (priority level val) = pri_value val := by
  obtain ⟨hfits, hd, -, -⟩ := hp.within fits_init hpass
  refine ⟨fun q e hq => ?_, ?_⟩
  · obtain ⟨-, -, hlow, -⟩ := hq.within hfits hd
    refine ⟨?_, hlow, hq.lt_window hfits hd⟩
    rw [Bool.eq_false_iff, ne_eq, pri_gt_iff]
    omega
  · intro kind nc child rest heq hkind
    subst heq
    obtain ⟨hacc, hchildren, -⟩ := hd
    refine ⟨fun i j hij q e r f hq hr => ?_, fun i => ?_⟩
    · have hqlt := hq.lt_window (hfits.child hacc i.isLt) (hchildren i)
      obtain ⟨-, -, hrlow, -⟩ := hr.within (hfits.child hacc j.isLt) (hchildren j)
      obtain ⟨hilevel, hivalue⟩ := child_window hfits hkind hacc i.isLt
      obtain ⟨-, hjvalue⟩ := child_window hfits hkind hacc j.isLt
      have hgap : (i.val + 1) * pri_delta (pri_level p + 1) ≤
          j.val * pri_delta (pri_level p + 1) := Nat.mul_le_mul_right _ hij
      rw [Nat.succ_mul] at hgap
      rw [pri_gt_iff]
      rw [hilevel, hivalue] at hqlt
      rw [hjvalue] at hrlow
      omega
    · refine ⟨?_, no_carry hfits hkind hacc i.isLt⟩
      simp only [ParKind.child_pri, hkind, if_true]

/-- A prioritised construct of three children, the second of which runs one of
eight on other processors. -/
def threeThenEight : Creation :=
  .par .par_pri 3
    (fun i => if i = 1 then .par .placed_par_pri 8 (fun _ => .done) .done else .done) .done

theorem nested_priorities_isolated_three_then_eight :
    threeThenEight.Passes INIT_PRI ∧ ∀ q e, Under INIT_PRI threeThenEight q e →
      pri_gt q INIT_PRI = false ∧ pri_value INIT_PRI ≤ pri_value q ∧
        pri_value q < pri_value INIT_PRI + pri_delta (pri_level INIT_PRI) := by
  have hpass : threeThenEight.Passes INIT_PRI := by
    refine ⟨by decide, fun i => ?_, trivial⟩
    by_cases hi : i = 1
    · subst hi
      exact ⟨by decide, fun _ => trivial, trivial⟩
    · simp only [hi, if_false]
      trivial
  exact ⟨hpass, (nested_priorities_isolated threeThenEight hpass .self).1⟩

end Trees

end Cxp
