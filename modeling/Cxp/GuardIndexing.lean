import Cxp.Communication

/-!
# The indices of the selects (`alt.c`)

`priSelect` and `fairSelect` go forwards over the guards and then backwards
over those that they have enabled.  `priSelect` has one index.  `fairSelect`
counts the guards in `k` and keeps the index `i` beside it, which goes round
modulo `nrGuards` both ways.  Here the loops are as in the source, index by
index, in 16 and 32 bits; whether a guard is ready is left open each time.

* The `k`-th guard looked at is the one at `(start + k) % nrGuards`, in both
  loops (`Looked`), and so every index is in range and comes once.
* With no guards at all the remainder is by zero: `fairSelect` takes it when it
  steps back, `priSelect` takes none (`indices_in_range`).
-/

namespace Cxp

open Run

namespace GuardLoops

/-- The fields of an alternation; `guards` is what the memory holds at an index
from the array on, where `none` is a guard for which the selects have no case. -/
structure Alternation (Chan : Type) where
  favorite : UInt16
  nrGuards : UInt16
  guards : Int → Option (Guard Chan)

/-- Where the loops stand: the index of `priSelect`, or counter and index of
`fairSelect`. -/
inductive Cursor
  | pri (i : Int)
  | fair (k i : Int)

/-- Where a select stands. -/
inductive SelectPc
  /-- no select is under way -/
  | idle
  /-- at the test of the enabling loop -/
  | enable (c : Cursor) (earliest : Int)
  /-- behind the loop, about to enable the earliest timeout -/
  | timeout (c : Cursor) (earliest : Int)
  /-- about to try Enabling to Waiting -/
  | shouldWait (c : Cursor)
  /-- has given up the processor -/
  | wait (c : Cursor)
  /-- at the test of the disabling loop -/
  | disable (c : Cursor) (selected : Int)
  /-- about to save the favorite and return -/
  | finish (selected : Int)
  /-- has taken a remainder by zero -/
  | divided

/-- One alternation, and the call that is under way on it.  The last three
fields are histories of the call: the index at which it began, and those used by
its two loops. -/
structure Selects (Chan : Type) where
  alt : Alternation Chan
  pc : SelectPc
  start : Nat
  enabled : List Int
  disabled : List Int

/-- A call, or the next step of one; `ready` is what the step finds, if it asks
whether a guard is ready, or the process has been made so. -/
inductive SelectAct
  | priSelect
  | fairSelect
  | go (ready : Bool)

/-- The remainder `%`; there is none by zero. -/
def rem (a n : Int) : Option Int := if n = 0 then none else some (a.tmod n)

namespace Cursor

def index : Cursor → Int
  | pri i => i
  | fair _ i => i

/-- The test of the enabling loop. -/
def test (n : Int) : Cursor → Bool
  | pri i => i < n
  | fair k _ => k < n

def next (n : Int) : Cursor → Option Cursor
  | pri i => some (pri (i + 1))
  | fair k i => (rem (i + 1) n).map (fair (k + 1))

/-- The test of the disabling loop. -/
def left : Cursor → Bool
  | pri i => i ≥ 0
  | fair k _ => k ≥ 0

def back (n : Int) : Cursor → Option Cursor
  | pri i => some (pri (i - 1))
  | fair k i => (rem (i - 1 + n) n).map (fair (k - 1))

def isFair : Cursor → Bool
  | pri _ => false
  | fair _ _ => true

end Cursor

variable {Chan : Type}

/-- The guard is taken for ready; an interrupt guard never is. -/
def found (guard : Option (Guard Chan)) (ready : Bool) : Bool :=
  match guard with
  | some (.chan _) => ready
  | some .skip => true
  | some (.timer _) => ready
  | none => false

/-- The earliest timeout, with this guard considered. -/
def earlier (guard : Option (Guard Chan)) (earliest : Int) : Int :=
  match guard with
  | some (.timer time) => if time < earliest then time else earliest
  | _ => earliest

namespace Alternation

def init_alt (guards : Int → Option (Guard Chan)) (size : Int) : Alternation Chan where
  favorite := 0
  nrGuards := UInt16.ofInt size
  guards := guards

/-- The number of guards, as the loops compare with it. -/
def count (alt : Alternation Chan) : Int := alt.nrGuards.toNat

/-- Save the starting point of the next `fairSelect`. -/
def saveFavorite (alt : Alternation Chan) (selected : Int) : Alternation Chan :=
  let favorite := UInt16.ofInt (selected + 1)
  { alt with
    favorite := if favorite ≥ alt.nrGuards then favorite - alt.nrGuards else favorite }

end Alternation

namespace Selects

/-- An alternation just initialised. -/
def init (guards : Int → Option (Guard Chan)) (size : Int) : Selects Chan where
  alt := .init_alt guards size
  pc := .idle
  start := 0
  enabled := []
  disabled := []

def goto (s : Selects Chan) (pc : SelectPc) : Selects Chan := { s with pc := pc }

/-- Go on with a cursor that has been moved. -/
def moved (s : Selects Chan) (c : Option Cursor) (pc : Cursor → SelectPc) : Selects Chan :=
  s.goto (match c with
    | some c => pc c
    | none => .divided)

def call (s : Selects Chan) (c : Cursor) : Selects Chan :=
  { s with
    pc := .enable c Select.NO_TIME
    start := c.index.toNat
    enabled := []
    disabled := [] }

/-- A round of the enabling loop, or the step back behind it. -/
def enable (s : Selects Chan) (c : Cursor) (earliest : Int) (ready : Bool) : Selects Chan :=
  if c.test s.alt.count then
    let guard := s.alt.guards c.index
    let s := { s with enabled := s.enabled ++ [c.index] }
    if found guard ready then s.goto (.disable c (-1))
    else s.moved (c.next s.alt.count) fun c => .enable c (earlier guard earliest)
  else s.moved (c.back s.alt.count) fun c => .timeout c earliest

/-- A round of the disabling loop. -/
def disable (s : Selects Chan) (c : Cursor) (selected : Int) (ready : Bool) : Selects Chan :=
  if c.left then
    let selected := if found (s.alt.guards c.index) ready then c.index else selected
    { s with disabled := s.disabled ++ [c.index] }.moved (c.back s.alt.count)
      fun c => .disable c selected
  else s.goto (.finish selected)

/-- The next step of the call. -/
def go (s : Selects Chan) (ready : Bool) : Option (Selects Chan) :=
  match s.pc with
  | .idle => none
  | .enable c earliest => some (s.enable c earliest ready)
  | .timeout c earliest =>
      some (s.goto (if earliest ≠ Select.NO_TIME ∧ ready then .disable c (-1)
        else .shouldWait c))
  | .shouldWait c => some (s.goto (if ready then .disable c (-1) else .wait c))
  | .wait c => some (s.goto (.disable c (-1)))
  | .disable c selected => some (s.disable c selected ready)
  | .finish selected => some { s with alt := s.alt.saveFavorite selected, pc := .idle }
  | .divided => none

/-- Selects are called one after the other. -/
def step (s : Selects Chan) : SelectAct → Option (Selects Chan)
  | .priSelect => if s.pc matches .idle then some (s.call (.pri 0)) else none
  | .fairSelect =>
      if s.pc matches .idle then some (s.call (.fair 0 s.alt.favorite.toNat)) else none
  | .go ready => s.go ready

/-- Every index is that of a guard, none comes twice in a loop, the disabling
loop goes over the guards that the enabling loop went over, and no remainder is
by zero. -/
structure InRange (size : Int) (s : Selects Chan) : Prop where
  array : 0 ≤ size → s.alt.count ≤ size
  favorite : 0 < s.alt.nrGuards → s.alt.favorite < s.alt.nrGuards
  enabled : ∀ i ∈ s.enabled, 0 ≤ i ∧ i < s.alt.count
  disabled : ∀ i ∈ s.disabled, 0 ≤ i ∧ i < s.alt.count
  once : s.enabled.Nodup ∧ s.disabled.Nodup
  same : s.disabled <+: s.enabled.reverse ∧
    ∀ selected, s.pc = .finish selected → s.disabled = s.enabled.reverse
  divisor : s.pc ≠ .divided

/-- A `fairSelect` goes over some guards. -/
def SomeGuards (s : Selects Chan) : SelectAct → Prop
  | .go _ => ∀ c earliest, s.pc = .enable c earliest → c.isFair → s.alt.nrGuards ≠ 0
  | _ => True

end Selects

/-- The index of the `k`-th guard looked at by a call that began at `start`. -/
def visit (start : Nat) (n k : Int) : Int := (start + k) % n

/-- The indices of the first `m` guards looked at. -/
def visits (start : Nat) (n : Int) (m : Nat) : List Int :=
  (List.range m).map fun k : Nat => visit start n k

/-- The cursor is at the `k`-th guard, or before the first or behind the last. -/
def Cursor.At (start : Nat) (n k : Int) : Cursor → Prop
  | pri i => start = 0 ∧ i = k
  | fair k' i => k' = k ∧ (n ≠ 0 → i = visit start n k)

/-- What the loops of a call have looked at, as far as it has come. -/
def Looked (start : Nat) (n : Int) (enabled disabled : List Int) : SelectPc → Prop
  | .enable c _ => ∃ k : Nat, k ≤ n ∧ c.At start n k ∧ enabled = visits start n k ∧ disabled = []
  | .timeout c _ | .shouldWait c | .wait c =>
      ∃ k : Nat, k ≤ n ∧ c.At start n (k - 1) ∧ enabled = visits start n k ∧ disabled = []
  | .disable c selected => -1 ≤ selected ∧ selected < n ∧
      ∃ m k : Nat, k ≤ m ∧ m ≤ n ∧ c.At start n (k - 1) ∧ enabled = visits start n m ∧
        enabled.reverse = disabled ++ (visits start n k).reverse
  | .finish selected => -1 ≤ selected ∧ selected < n ∧
      ∃ m : Nat, m ≤ n ∧ enabled = visits start n m ∧ disabled = enabled.reverse
  | .idle => ∃ m : Nat, m ≤ n ∧ enabled = visits start n m ∧ disabled = enabled.reverse
  | .divided => False

section Indices

variable {start : Nat} {n k : Int} {m : Nat} {c : Cursor}

theorem visit_range (start : Nat) (k : Int) (hn : 0 < n) : 0 ≤ visit start n k ∧ visit start n k < n :=
  ⟨Int.emod_nonneg _ (by omega), Int.emod_lt_of_pos _ hn⟩

/-- Less than a round of guards are all different. -/
theorem visit_inj {j : Int} (hj : 0 ≤ j ∧ j < n) (hk : 0 ≤ k ∧ k < n)
    (h : visit start n j = visit start n k) : j = k := by
  have hsub : (j - k) % n = 0 := by
    have hdiff := Int.emod_eq_emod_iff_emod_sub_eq_zero.mp h
    have harith : (start : Int) + j - (start + k) = j - k := by omega
    rwa [harith] at hdiff
  obtain ⟨q, hq⟩ := Int.dvd_of_emod_eq_zero hsub
  have hzero : q = 0 := by
    by_contra hne
    obtain hpos | hneg : 1 ≤ q ∨ q ≤ -1 := by omega
    · have hle := Int.mul_le_mul_of_nonneg_left hpos (show 0 ≤ n by omega)
      omega
    · have hle := Int.mul_le_mul_of_nonneg_left hneg (show 0 ≤ n by omega)
      omega
  rw [hzero, Int.mul_zero] at hq
  omega

theorem visits_succ (start : Nat) (n : Int) (m : Nat) :
    visits start n (m + 1) = visits start n m ++ [visit start n m] := by
  simp [visits, List.range_succ]

theorem visits_range {i : Int} (hm : m ≤ n) (hi : i ∈ visits start n m) : 0 ≤ i ∧ i < n := by
  obtain ⟨k, hk, rfl⟩ := List.mem_map.mp hi
  have hlt := List.mem_range.mp hk
  exact visit_range _ _ (by omega)

theorem visits_nodup (hm : m ≤ n) : (visits start n m).Nodup := by
  refine List.Nodup.map_on ?_ List.nodup_range
  intro j hj k hk h
  have hj' := List.mem_range.mp hj
  have hk' := List.mem_range.mp hk
  have heq : (j : Int) = k := visit_inj (by omega) (by omega) h
  omega

theorem Cursor.At.index_eq (h : c.At start n k) (hk : 0 ≤ k) (hlt : k < n) :
    c.index = visit start n k := by
  cases c with
  | pri i =>
      obtain ⟨rfl, rfl⟩ := h
      rw [Cursor.index, visit, Int.natCast_zero, Int.zero_add, Int.emod_eq_of_lt hk hlt]
  | fair k' i => exact h.2 (by omega)

theorem Cursor.At.test_iff (h : c.At start n k) : c.test n = true ↔ k < n := by
  cases c with
  | pri i => simp [Cursor.test, h.2]
  | fair k' i => simp [Cursor.test, h.1]

theorem Cursor.At.left_iff (h : c.At start n k) : c.left = true ↔ 0 ≤ k := by
  cases c with
  | pri i => simp [Cursor.left, h.2]
  | fair k' i => simp [Cursor.left, h.1]

/-- One guard forwards. -/
theorem Cursor.At.next_eq (h : c.At start n k) (hk : 0 ≤ k) (hlt : k < n) :
    ∃ d, c.next n = some d ∧ d.At start n (k + 1) := by
  cases c with
  | pri i => exact ⟨_, rfl, h.1, by rw [h.2]⟩
  | fair k' i =>
      obtain ⟨rfl, hi⟩ := h
      have hi := hi (by omega)
      have hrange := visit_range start k' (show 0 < n by omega)
      refine ⟨.fair (k' + 1) ((i + 1).tmod n), ?_, rfl, fun _ => ?_⟩
      · rw [Cursor.next, rem, if_neg (by omega)]
        rfl
      · rw [Int.tmod_eq_emod_of_nonneg (by omega), hi, visit, visit, Int.emod_add_emod,
          Int.add_assoc]

/-- One guard backwards; `fairSelect` needs a guard for it. -/
theorem Cursor.At.back_eq (h : c.At start n k) (hfair : c.isFair → 0 < n) :
    ∃ d, c.back n = some d ∧ d.At start n (k - 1) := by
  cases c with
  | pri i => exact ⟨_, rfl, h.1, by rw [h.2]⟩
  | fair k' i =>
      obtain ⟨rfl, hi⟩ := h
      have hn := hfair rfl
      have hi := hi (by omega)
      have hrange := visit_range start k' hn
      refine ⟨.fair (k' - 1) ((i - 1 + n).tmod n), ?_, rfl, fun _ => ?_⟩
      · rw [Cursor.back, rem, if_neg (by omega)]
        rfl
      · have harith : i - 1 + n = i + (-1 + n) := by omega
        rw [Int.tmod_eq_emod_of_nonneg (by omega), harith, hi, visit, visit, Int.emod_add_emod]
        have harith' : (start : Int) + k' + (-1 + n) = start + (k' - 1) + n := by omega
        rw [harith', Int.add_emod_right]

end Indices

section Steps

variable {s t : Selects Chan} {size : Int} {act : SelectAct} {c : Cursor} {earliest selected : Int}
  {start : Nat} {n : Int} {enabled disabled : List Int} {pc : SelectPc}

/-- The invariant. -/
structure Indexed (size : Int) (s : Selects Chan) : Prop where
  count : s.alt.nrGuards = UInt16.ofInt size
  favorite : 0 < s.alt.nrGuards → s.alt.favorite < s.alt.nrGuards
  looked : Looked s.start s.alt.count s.enabled s.disabled s.pc

/-- What has been looked at, wherever the call stands. -/
theorem Looked.range (h : Looked start n enabled disabled pc) :
    ∃ m : Nat, m ≤ n ∧ enabled = visits start n m ∧ disabled <+: enabled.reverse := by
  cases pc with
  | enable c earliest =>
      obtain ⟨k, hk, -, henabled, hdisabled⟩ := h
      exact ⟨k, hk, henabled, hdisabled ▸ List.nil_prefix⟩
  | timeout c earliest =>
      obtain ⟨k, hk, -, henabled, hdisabled⟩ := h
      exact ⟨k, hk, henabled, hdisabled ▸ List.nil_prefix⟩
  | shouldWait c =>
      obtain ⟨k, hk, -, henabled, hdisabled⟩ := h
      exact ⟨k, hk, henabled, hdisabled ▸ List.nil_prefix⟩
  | wait c =>
      obtain ⟨k, hk, -, henabled, hdisabled⟩ := h
      exact ⟨k, hk, henabled, hdisabled ▸ List.nil_prefix⟩
  | disable c selected =>
      obtain ⟨-, -, m, k, -, hm, -, henabled, hsplit⟩ := h
      exact ⟨m, hm, henabled, hsplit ▸ List.prefix_append _ _⟩
  | finish selected =>
      obtain ⟨-, -, m, hm, henabled, hdisabled⟩ := h
      exact ⟨m, hm, henabled, hdisabled ▸ List.prefix_rfl⟩
  | idle =>
      obtain ⟨m, hm, henabled, hdisabled⟩ := h
      exact ⟨m, hm, henabled, hdisabled ▸ List.prefix_rfl⟩
  | divided => cases h

/-- The 16-bit number of guards is not larger than the number that was passed. -/
theorem count_le (hsize : 0 ≤ size) : ((UInt16.ofInt size).toNat : Int) ≤ size := by
  have hmod := Int.emod_lt_of_pos size (show (0 : Int) < 2 ^ 16 by decide)
  have hnonneg := Int.emod_nonneg size (show (2 ^ 16 : Int) ≠ 0 by decide)
  have hle : size % 2 ^ 16 ≤ size := by omega
  rw [UInt16.ofInt, UInt16.toNat_ofNat', Nat.mod_eq_of_lt (by omega), Int.toNat_of_nonneg hnonneg]
  exact hle

theorem Indexed.inRange (h : Indexed size s) : s.InRange size := by
  obtain ⟨m, hm, henabled, hfirst⟩ := h.looked.range
  have hrange : ∀ i ∈ s.enabled, 0 ≤ i ∧ i < s.alt.count := by
    intro i hi
    rw [henabled] at hi
    exact visits_range hm hi
  have hnodup : s.enabled.Nodup := henabled ▸ visits_nodup hm
  refine ⟨fun hsize => ?_, h.favorite, hrange, fun i hi => ?_, ⟨hnodup, ?_⟩,
    ⟨hfirst, fun selected hpc => ?_⟩, fun hpc => ?_⟩
  · rw [Alternation.count, h.count]
    exact count_le hsize
  · exact hrange i (List.mem_reverse.mp (hfirst.subset hi))
  · exact hfirst.sublist.nodup (List.nodup_reverse.mpr hnodup)
  · have hlooked := h.looked
    rw [hpc] at hlooked
    obtain ⟨-, -, -, -, -, hdisabled⟩ := hlooked
    exact hdisabled
  · have hlooked := h.looked
    rw [hpc] at hlooked
    exact hlooked

/-- The favorite that is left behind is the index of a guard. -/
theorem saveFavorite_lt {alt : Alternation Chan} (hlow : -1 ≤ selected)
    (hhigh : selected < alt.count) (hpos : 0 < alt.nrGuards) :
    (alt.saveFavorite selected).favorite < alt.nrGuards := by
  have hlt := alt.nrGuards.toNat_lt
  have hpos' : 0 < alt.nrGuards.toNat := hpos
  unfold Alternation.count at hhigh
  have hsaved : (UInt16.ofInt (selected + 1)).toNat = (selected + 1).toNat := by
    rw [UInt16.ofInt, UInt16.toNat_ofNat', Int.emod_eq_of_lt (by omega) (by omega),
      Nat.mod_eq_of_lt (by omega)]
  unfold Alternation.saveFavorite
  dsimp only
  split
  next hge =>
    have hge' : alt.nrGuards.toNat ≤ (UInt16.ofInt (selected + 1)).toNat := hge
    have hsame : UInt16.ofInt (selected + 1) = alt.nrGuards := by
      apply UInt16.toNat_inj.mp
      omega
    rw [hsame, UInt16.sub_self]
    exact hpos
  next hlt' => exact UInt16.not_le.mp hlt'

/-- A round of the enabling loop. -/
theorem looked_enable (h : Looked s.start s.alt.count s.enabled s.disabled (.enable c earliest))
    (hfair : c.isFair → 0 < s.alt.count) (ready : Bool) :
    let t := s.enable c earliest ready
    Looked t.start t.alt.count t.enabled t.disabled t.pc := by
  obtain ⟨k, hk, hat, henabled, hdisabled⟩ := h
  unfold Selects.enable
  by_cases htest : c.test s.alt.count = true
  · have hlt := hat.test_iff.mp htest
    have hindex := hat.index_eq (by omega) hlt
    have hmore : s.enabled ++ [c.index] = visits s.start s.alt.count (k + 1) := by
      rw [visits_succ, henabled, hindex]
    rw [if_pos htest]
    dsimp only
    split
    · show Looked s.start s.alt.count (s.enabled ++ [c.index]) s.disabled (.disable c (-1))
      refine ⟨by omega, by omega, k + 1, k + 1, Nat.le_refl _, by omega, ?_, hmore, ?_⟩
      · have harith : ((k + 1 : Nat) : Int) - 1 = k := by omega
        rw [harith]
        exact hat
      · rw [hdisabled, hmore, List.nil_append]
    · obtain ⟨d, hd, hat'⟩ := hat.next_eq (by omega) hlt
      rw [hd]
      show Looked s.start s.alt.count (s.enabled ++ [c.index]) s.disabled (.enable d _)
      exact ⟨k + 1, by omega, hat', hmore, hdisabled⟩
  · have hend : ¬ (k : Int) < s.alt.count := fun hlt => htest (hat.test_iff.mpr hlt)
    obtain ⟨d, hd, hat'⟩ := hat.back_eq hfair
    rw [if_neg htest, hd]
    exact ⟨k, hk, hat', henabled, hdisabled⟩

/-- A round of the disabling loop. -/
theorem looked_disable
    (h : Looked s.start s.alt.count s.enabled s.disabled (.disable c selected)) (ready : Bool) :
    let t := s.disable c selected ready
    Looked t.start t.alt.count t.enabled t.disabled t.pc := by
  obtain ⟨hlow, hhigh, m, k, hkm, hm, hat, henabled, hsplit⟩ := h
  unfold Selects.disable
  by_cases hleft : c.left = true
  · have hk := hat.left_iff.mp hleft
    obtain ⟨j, rfl⟩ : ∃ j, k = j + 1 := ⟨k - 1, by omega⟩
    have harith : ((j + 1 : Nat) : Int) - 1 = j := by omega
    rw [harith] at hat
    have hindex := hat.index_eq (by omega) (by omega)
    have hrange := visit_range s.start j (show 0 < s.alt.count by omega)
    obtain ⟨d, hd, hat'⟩ := hat.back_eq fun _ => by omega
    rw [if_pos hleft, hd]
    show Looked s.start s.alt.count s.enabled (s.disabled ++ [c.index]) (.disable d _)
    refine ⟨?_, ?_, m, j, by omega, hm, hat', henabled, ?_⟩
    · split <;> omega
    · split <;> omega
    · rw [hsplit, visits_succ, List.reverse_append, hindex, List.append_assoc]
      rfl
  · have hzero : k = 0 := by
      have hnot : ¬ (0 : Int) ≤ k - 1 := fun hk => hleft (hat.left_iff.mpr hk)
      omega
    rw [hzero] at hsplit
    rw [if_neg hleft]
    show Looked s.start s.alt.count s.enabled s.disabled (.finish selected)
    refine ⟨hlow, hhigh, m, hm, henabled, ?_⟩
    rw [hsplit]
    simp [visits]

/-- The call goes on to its disabling loop. -/
theorem looked_found (hn : 0 ≤ n) (h : ∃ k : Nat, k ≤ n ∧ c.At start n (k - 1) ∧
    enabled = visits start n k ∧ disabled = []) :
    Looked start n enabled disabled (.disable c (-1)) := by
  obtain ⟨k, hk, hat, henabled, hdisabled⟩ := h
  refine ⟨by omega, by omega, k, k, Nat.le_refl _, hk, hat, henabled, ?_⟩
  rw [hdisabled, henabled, List.nil_append]

/-- A call begins at the first guard, or at the favorite. -/
theorem looked_call (hn : 0 ≤ n) {first : Nat} (hc : c.At first n 0) :
    Looked first n [] [] (.enable c earliest) :=
  ⟨0, hn, hc, rfl, rfl⟩

theorem count_nonneg (s : Selects Chan) : 0 ≤ s.alt.count := Int.natCast_nonneg _

theorem count_pos (hne : s.alt.nrGuards ≠ 0) : 0 < s.alt.count := by
  have hpos : 0 < s.alt.nrGuards := UInt16.pos_iff_ne_zero.mpr hne
  exact Int.natCast_pos.mpr hpos

/-- The cursor with which `fairSelect` begins. -/
theorem Indexed.favorite_at (h : Indexed size s) :
    (Cursor.fair 0 s.alt.favorite.toNat).At s.alt.favorite.toNat s.alt.count 0 := by
  refine ⟨rfl, fun hne => ?_⟩
  have hpos : 0 < s.alt.nrGuards := by
    refine UInt16.pos_iff_ne_zero.mpr fun hzero => hne ?_
    rw [Alternation.count, hzero]
    rfl
  have hlt : s.alt.favorite.toNat < s.alt.nrGuards.toNat := h.favorite hpos
  rw [visit, Alternation.count, Int.add_zero, Int.emod_eq_of_lt (by omega) (by omega)]

/-- **Every step keeps the invariant**, if a `fairSelect` has guards to go over. -/
theorem Indexed.step (h : Indexed size s) (hC : s.SomeGuards act) (hstep : s.step act = some t) :
    Indexed size t := by
  have hn := count_nonneg s
  have hlooked := h.looked
  cases act with
  | priSelect =>
      obtain ⟨-, hstep⟩ := Option.ite_none_right_eq_some.mp hstep
      cases hstep
      exact ⟨h.count, h.favorite, looked_call hn ⟨rfl, rfl⟩⟩
  | fairSelect =>
      obtain ⟨-, hstep⟩ := Option.ite_none_right_eq_some.mp hstep
      cases hstep
      exact ⟨h.count, h.favorite, looked_call hn h.favorite_at⟩
  | go ready =>
      simp only [Selects.step, Selects.go] at hstep
      cases hpc : s.pc with
      | idle =>
          rw [hpc] at hstep
          cases hstep
      | enable c earliest =>
          rw [hpc] at hstep hlooked
          obtain rfl := Option.some.inj hstep
          have hsame : (s.enable c earliest ready).alt = s.alt := by
            unfold Selects.enable
            split
            · dsimp only
              split <;> rfl
            · rfl
          refine ⟨hsame ▸ h.count, hsame ▸ h.favorite, looked_enable hlooked ?_ ready⟩
          intro hfair
          exact count_pos (hC c earliest hpc hfair)
      | timeout c earliest =>
          rw [hpc] at hstep hlooked
          obtain rfl := Option.some.inj hstep
          refine ⟨h.count, h.favorite, ?_⟩
          show Looked s.start s.alt.count s.enabled s.disabled (if _ then _ else _)
          split
          · exact looked_found hn hlooked
          · exact hlooked
      | shouldWait c =>
          rw [hpc] at hstep hlooked
          obtain rfl := Option.some.inj hstep
          refine ⟨h.count, h.favorite, ?_⟩
          show Looked s.start s.alt.count s.enabled s.disabled (if _ then _ else _)
          split
          · exact looked_found hn hlooked
          · exact hlooked
      | wait c =>
          rw [hpc] at hstep hlooked
          obtain rfl := Option.some.inj hstep
          exact ⟨h.count, h.favorite, looked_found hn hlooked⟩
      | disable c selected =>
          rw [hpc] at hstep hlooked
          obtain rfl := Option.some.inj hstep
          have hsame : (s.disable c selected ready).alt = s.alt := by
            unfold Selects.disable
            split <;> rfl
          exact ⟨hsame ▸ h.count, hsame ▸ h.favorite, looked_disable hlooked ready⟩
      | finish selected =>
          rw [hpc] at hstep hlooked
          obtain rfl := Option.some.inj hstep
          obtain ⟨hlow, hhigh, hrest⟩ := hlooked
          exact ⟨h.count, saveFavorite_lt hlow hhigh, hrest⟩
      | divided =>
          rw [hpc] at hstep
          cases hstep

/-- A `fairSelect` that has no guards to go over takes a remainder by zero. -/
theorem Indexed.divides (h : Indexed size s) (hC : ¬ s.SomeGuards act)
    (hstep : s.step act = some t) : ¬ t.InRange size := by
  cases act with
  | priSelect => exact absurd trivial hC
  | fairSelect => exact absurd trivial hC
  | go ready =>
      simp only [Selects.SomeGuards, not_forall, not_not] at hC
      obtain ⟨c, earliest, hpc, hfair, hzero⟩ := hC
      have hcount : s.alt.count = 0 := by
        rw [Alternation.count, hzero]
        rfl
      have hlooked := h.looked
      rw [hpc] at hlooked
      obtain ⟨k, -, hat, -⟩ := hlooked
      have htest : ¬ c.test s.alt.count = true := by
        rw [hat.test_iff, hcount]
        omega
      have hback : c.back s.alt.count = none := by
        cases c with
        | pri i => cases hfair
        | fair k' i => simp [Cursor.back, rem, hcount]
      simp only [Selects.step, Selects.go, hpc, Option.some.injEq] at hstep
      unfold Selects.enable at hstep
      rw [if_neg htest, hback] at hstep
      intro hrange
      exact hrange.divisor (by rw [← hstep]; rfl)

/-- The guards are looked at in the order that `Select.index` gives them. -/
theorem Indexed.order (h : Indexed size s) (f : Select Chan)
    (hsize : f.size = s.alt.nrGuards.toNat) (hstart : f.start = s.start) :
    ∃ m ≤ f.size, s.enabled = (List.range m).map fun k : Nat => (f.index k : Int) := by
  obtain ⟨m, hm, henabled, -⟩ := h.looked.range
  rw [Alternation.count, ← hsize] at hm henabled
  refine ⟨m, by omega, henabled.trans ?_⟩
  apply List.map_congr_left
  intro k _
  rw [visit, Select.index, hstart, Int.natCast_emod, Int.natCast_add]

theorem indexed_init (guards : Int → Option (Guard Chan)) (size : Int) :
    Indexed size (Selects.init guards size) :=
  ⟨rfl, fun hpos => hpos, 0, count_nonneg _, rfl, rfl⟩

/-- Only a size that is a multiple of `2 ^ 16` leaves no guards. -/
theorem Indexed.someGuards (h : Indexed size s) (hsize : ¬ (65536 : Int) ∣ size) (act : SelectAct) :
    s.SomeGuards act := by
  cases act with
  | go ready =>
      intro c earliest _ _ hzero
      have hofInt : (UInt16.ofInt size).toNat = 0 := by
        rw [← h.count, hzero]
        rfl
      rw [UInt16.ofInt, UInt16.toNat_ofNat'] at hofInt
      apply hsize
      omega
  | _ => trivial

end Steps

/-- **The indices of the selects are in range**, in every sequence of calls of
`priSelect` and `fairSelect` on an alternation of any size, exactly as long as no
`fairSelect` goes over an alternation whose 16-bit number of guards is zero; so
always, when the size is no multiple of `2 ^ 16`. -/
theorem indices_in_range {Chan : Type} (guards : Int → Option (Guard Chan)) (size : Int)
    (acts : List SelectAct) {t : Selects Chan}
    (hrun : exec Selects.step (Selects.init guards size) acts = some t) :
    (Throughout Selects.step (Selects.InRange size) (Selects.init guards size) acts ↔
      Along Selects.step Selects.SomeGuards (Selects.init guards size) acts) ∧
    (¬ (65536 : Int) ∣ size →
      Throughout Selects.step (Selects.InRange size) (Selects.init guards size) acts) := by
  have hiff : Throughout Selects.step (Selects.InRange size) (Selects.init guards size) acts ↔
      Along Selects.step Selects.SomeGuards (Selects.init guards size) acts :=
    throughout_iff_along (I := Indexed size) (fun _ _ _ h hC hstep => h.step hC hstep)
      (fun _ h => h.inRange) (fun _ _ _ h hC hstep => h.divides hC hstep) hrun
      (indexed_init guards size)
  refine ⟨hiff, fun hsize => ?_⟩
  exact throughout_of_along (I := Indexed size) (C := fun _ _ => True)
    (fun _ act _ h _ hstep => h.step (h.someGuards hsize act) hstep) (fun _ h => h.inRange)
    (along_true _ _) (indexed_init guards size)

/-- Three guards; `priSelect` is woken and selects the second, `fairSelect` begins
at the third, finds the first ready and selects it. -/
theorem indices_in_range_three :
    let acts : List SelectAct :=
      [.priSelect, .go false, .go false, .go false, .go false, .go false, .go false, .go true,
        .go false, .go true, .go false, .go false, .go false, .fairSelect, .go false, .go true,
        .go true, .go false, .go false]
    (exec Selects.step (Selects.init (fun _ => some (.chan ())) 3) acts).any
      (fun s => s.enabled = [2, 0] ∧ s.disabled = [0, 2]) = true ∧
    Throughout Selects.step (Selects.InRange 3) (Selects.init (fun _ => some (.chan ())) 3) acts :=
  ⟨by decide +kernel, (indices_in_range _ 3 _ (t := _) rfl).2 (by decide)⟩

/-- A `fairSelect` over no guards. -/
theorem remainder_by_zero :
    ¬ ∀ (size : Int) (acts : List SelectAct),
      Throughout Selects.step (Selects.InRange size)
        (Selects.init (fun _ => (none : Option (Guard Unit))) size) acts := by
  intro hall
  have hlast := (hall 0 [.fairSelect, .go false]).last rfl
  exact hlast.divisor rfl

end GuardLoops

end Cxp
