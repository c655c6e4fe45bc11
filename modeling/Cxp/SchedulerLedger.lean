import Cxp.SchedulerSeats
import Mathlib.Algebra.BigOperators.Group.Finset.Piecewise

/-!
# Seats and wakeups

A process that is not waiting has one seat.  A wakeup is owed to a waiting
process as soon as its state says so, first as a process that is about to
schedule it, then as a seat: so a process that has marked itself waiting and
still has the processor comes to have two, of which it gives up one, and one
that has given up the processor has a seat again when it is woken.  The *books*
(`Books`) say that this is so of every process, whatever the seats are.
-/

namespace Cxp

open Queues

/-- What a process waits for, or is about to. -/
def Code.awaits : Code → Option Wait
  | .par _ nc _ => some (.par nc)
  | .relinquish w | .switched w => some w
  | _ => none

/-- The seat of a process that exists and has not given up the processor. -/
def Code.base : Code → Nat
  | .unborn | .dead | .switched _ => 0
  | _ => 1

/-- The process has called `par_barr_sync`. -/
def Code.synced : Code → Bool
  | .ending | .finishing | .dead => true
  | _ => false

/-- The number of children, and of those not built yet. -/
def Code.family : Code → Option (Nat × Nat)
  | .par _ nc left => some (nc, left)
  | .relinquish (.par nc) | .switched (.par nc) => some (nc, 0)
  | _ => none

/-- The states that a process can have where it stands. -/
def StateOk (code : Code) (sched : SchedState) (alt : AltState) : Prop :=
  match code with
  | .prepared => sched ≠ .waiting ∧ alt ≠ .waiting
  | .par _ _ _ => sched = .preparingToWait ∧ alt ≠ .waiting
  | .relinquish .sched | .switched .sched => sched ≠ .preparingToWait ∧ alt ≠ .waiting
  | .relinquish .alt | .switched .alt => alt = .waiting ∨ alt = .ready
  | _ => alt ≠ .waiting

namespace Sched

variable {N U : Nat}

/-- What the process waits for has come about. -/
def met (s : Sched N U) (p : Fin N) : Wait → Bool
  | .sched => s.sched_state p = .ready
  | .alt => s.alt_state p = .ready
  | .par nc => nc ≠ 0 ∧ s.children p = 0

/-- One for a waiting process that has been woken. -/
def woken (s : Sched N U) (p : Fin N) : Nat :=
  match (s.live p).code.awaits with
  | some w => if s.met p w then 1 else 0
  | none => 0

/-- How many processes are about to schedule the process. -/
def calls (s : Sched N U) (p : Fin N) : Nat :=
  (Finset.univ.filter fun u => (s.live u).op = .schedule p).card

/-- How many children of the process have not called `par_barr_sync`. -/
def unsynced (s : Sched N U) (p : Fin N) : Nat :=
  (Finset.univ.filter fun c => s.parent c = some p ∧ (s.live c).code.synced = false).card

/-- In a par of an admitted size, the barrier counts the children that are still
to sync; outside, there are none. -/
def FamilyOk (size : Nat → Prop) (s : Sched N U) (p : Fin N) : Prop :=
  match (s.live p).code.family with
  | some (nc, left) =>
      size nc ∧ s.children p = left + s.unsynced p ∧ left + s.unsynced p ≤ nc
  | none => s.unsynced p = 0

/-- Every process has the seats that it ought to have. -/
structure Books (size : Nat → Prop) (seat : Fin N → Nat) (s : Sched N U) : Prop where
  balanced : ∀ p, seat p + s.calls p = (s.live p).code.base + s.woken p
  owed : ∀ p, s.calls p ≤ s.woken p
  state : ∀ p, StateOk (s.live p).code (s.sched_state p) (s.alt_state p)
  family : ∀ p, s.FamilyOk size p
  unborn : ∀ p, (s.live p).code = .unborn → s.parent p = none ∧ (s.live p).op = .none
  waking : ∀ p q, (s.live p).op = .freeWaiting q ∨ (s.live p).op = .schedule q →
    (s.live p).code.awaits = none

variable {sys : Procs N U} {s t : Sched N U} {p q u c : Fin N} {seat seat' : Fin N → Nat}
  {size : Nat → Prop}

theorem woken_le (s : Sched N U) (p : Fin N) : s.woken p ≤ 1 := by
  unfold woken
  split
  · split <;> omega
  · omega

/-- A count changes where the predicate does. -/
theorem card_filter_change {P Q : Fin N → Prop} [DecidablePred P] [DecidablePred Q]
    (h : ∀ x, x ≠ u → (Q x ↔ P x)) :
    (Finset.univ.filter Q).card + (if P u then 1 else 0) =
      (Finset.univ.filter P).card + if Q u then 1 else 0 := by
  have herase : ∀ (R : Fin N → Prop) [DecidablePred R], (Finset.univ.filter R).card =
      (if R u then 1 else 0) + ∑ x ∈ Finset.univ.erase u, if R x then 1 else 0 := by
    intro R _
    rw [Finset.card_filter]
    exact (Finset.add_sum_erase _ _ (Finset.mem_univ u)).symm
  have hsame : (∑ x ∈ Finset.univ.erase u, if Q x then 1 else 0) =
      ∑ x ∈ Finset.univ.erase u, if P x then 1 else 0 := by
    apply Finset.sum_congr rfl
    intro x hx
    simp only [h x (Finset.ne_of_mem_erase hx)]
  rw [herase P, herase Q, hsame]
  omega

theorem calls_change (h : ∀ x, x ≠ u → (t.live x).op = (s.live x).op) (p : Fin N) :
    t.calls p + (if (s.live u).op = .schedule p then 1 else 0) =
      s.calls p + if (t.live u).op = .schedule p then 1 else 0 :=
  card_filter_change (P := fun x => (s.live x).op = .schedule p)
    (Q := fun x => (t.live x).op = .schedule p) fun x hx => by rw [h x hx]

theorem unsynced_change (h : ∀ x, x ≠ c → t.parent x = s.parent x ∧
      (t.live x).code.synced = (s.live x).code.synced) (p : Fin N) :
    t.unsynced p +
        (if s.parent c = some p ∧ (s.live c).code.synced = false then 1 else 0) =
      s.unsynced p +
        if t.parent c = some p ∧ (t.live c).code.synced = false then 1 else 0 :=
  card_filter_change (P := fun x => s.parent x = some p ∧ (s.live x).code.synced = false)
    (Q := fun x => t.parent x = some p ∧ (t.live x).code.synced = false)
    fun x hx => by rw [(h x hx).1, (h x hx).2]

theorem Same.calls (h : Same s t) (p : Fin N) : t.calls p = s.calls p := by
  unfold Sched.calls
  simp only [h.op]

theorem Same.unsynced (h : Same s t) (p : Fin N) : t.unsynced p = s.unsynced p := by
  unfold Sched.unsynced
  simp only [h.code, h.parent]

theorem met_congr (hs : t.sched_state p = s.sched_state p)
    (ha : t.alt_state p = s.alt_state p) (hc : t.children p = s.children p) (w : Wait) :
    t.met p w = s.met p w := by
  cases w <;> simp only [met, hs, ha, hc]

theorem woken_congr (hcode : (t.live p).code = (s.live p).code)
    (hs : t.sched_state p = s.sched_state p) (ha : t.alt_state p = s.alt_state p)
    (hc : t.children p = s.children p) : t.woken p = s.woken p := by
  unfold woken
  rw [hcode]
  split
  · rw [met_congr hs ha hc]
  · rfl

theorem FamilyOk.congr (h : s.FamilyOk size p) (hcode : (t.live p).code.family = (s.live p).code.family)
    (hc : t.children p = s.children p) (hu : t.unsynced p = s.unsynced p) :
    t.FamilyOk size p := by
  unfold FamilyOk
  rw [hcode, hc, hu]
  exact h

/-- The books do not depend on who sits where. -/
theorem Books.same (h : Books size seat s) (hsame : Same s t) : Books size seat t where
  balanced p := by
    rw [hsame.calls, hsame.code, woken_congr (hsame.code p) (by rw [hsame.sched_state])
      (by rw [hsame.alt_state]) (by rw [hsame.children])]
    exact h.balanced p
  owed p := by
    rw [hsame.calls, woken_congr (hsame.code p) (by rw [hsame.sched_state])
      (by rw [hsame.alt_state]) (by rw [hsame.children])]
    exact h.owed p
  state p := by
    rw [hsame.code, hsame.sched_state, hsame.alt_state]
    exact h.state p
  family p := (h.family p).congr (by rw [hsame.code]) (by rw [hsame.children])
    (hsame.unsynced p)
  unborn p := by
    rw [hsame.code, hsame.op, hsame.parent]
    exact h.unborn p
  waking p q := by
    rw [hsame.code, hsame.op]
    exact h.waking p q

/-- What a process does to itself, without scheduling anybody. -/
structure Acts (s t : Sched N U) (p : Fin N) : Prop where
  live : ∀ x, x ≠ p → t.live x = s.live x
  sched_state : ∀ x, x ≠ p → t.sched_state x = s.sched_state x
  alt_state : ∀ x, x ≠ p → t.alt_state x = s.alt_state x
  children : ∀ x, x ≠ p → t.children x = s.children x
  parent : t.parent = s.parent
  op : ∀ q, (t.live p).op ≠ .schedule q
  op' : ∀ q, (s.live p).op ≠ .schedule q
  synced : (t.live p).code.synced = (s.live p).code.synced
  born : (t.live p).code ≠ .unborn
  waking : ∀ q, (t.live p).op = .freeWaiting q → (t.live p).code.awaits = none

theorem Acts.calls (h : Acts s t p) (x : Fin N) : t.calls x = s.calls x := by
  have hchange := calls_change (s := s) (t := t) (u := p) (fun y hy => by rw [h.live y hy]) x
  rwa [if_neg (h.op x), if_neg (h.op' x)] at hchange

theorem Acts.unsynced (h : Acts s t p) (x : Fin N) : t.unsynced x = s.unsynced x := by
  unfold Sched.unsynced
  congr 1
  apply Finset.filter_congr
  intro y _
  rw [h.parent]
  by_cases hy : y = p
  · rw [hy, h.synced]
  · rw [h.live y hy]

/-- The books after an act of a process: what it loses in seats, it ought to. -/
theorem Books.acts (h : Books size seat s) (ha : Acts s t p)
    (hseat : ∀ x, x ≠ p → seat' x = seat x)
    (hdue : seat' p + ((s.live p).code.base + s.woken p) =
      seat p + ((t.live p).code.base + t.woken p))
    (howed : s.calls p ≤ t.woken p)
    (hstate : StateOk (t.live p).code (t.sched_state p) (t.alt_state p))
    (hfamily : s.FamilyOk size p → t.unsynced p = s.unsynced p → t.FamilyOk size p) :
    Books size seat' t where
  balanced x := by
    rw [ha.calls]
    have hx := h.balanced x
    by_cases hxp : x = p
    · subst hxp
      omega
    · rw [hseat x hxp, woken_congr (by rw [ha.live x hxp]) (ha.sched_state x hxp)
        (ha.alt_state x hxp) (ha.children x hxp), ha.live x hxp]
      exact hx
  owed x := by
    rw [ha.calls]
    by_cases hxp : x = p
    · subst hxp
      exact howed
    · rw [woken_congr (by rw [ha.live x hxp]) (ha.sched_state x hxp) (ha.alt_state x hxp)
        (ha.children x hxp)]
      exact h.owed x
  state x := by
    by_cases hxp : x = p
    · rw [hxp]
      exact hstate
    · rw [ha.live x hxp, ha.sched_state x hxp, ha.alt_state x hxp]
      exact h.state x
  family x := by
    by_cases hxp : x = p
    · rw [hxp]
      exact hfamily (h.family p) (ha.unsynced p)
    · exact (h.family x).congr (by rw [ha.live x hxp]) (ha.children x hxp) (ha.unsynced x)
  unborn x hx := by
    by_cases hxp : x = p
    · exact absurd (hxp ▸ hx) ha.born
    · rw [ha.live x hxp] at hx ⊢
      rw [ha.parent]
      exact h.unborn x hx
  waking x q hx := by
    by_cases hxp : x = p
    · subst hxp
      exact hx.elim (ha.waking q) fun hs => absurd hs (ha.op q)
    · rw [ha.live x hxp] at hx ⊢
      exact h.waking x q hx

/-- The states of `q` change, and who is about to schedule whom. -/
structure Tells (s t : Sched N U) (q : Fin N) : Prop where
  code : ∀ x, (t.live x).code = (s.live x).code
  op : ∀ x, (s.live x).code = .unborn → (t.live x).op = (s.live x).op
  waking : ∀ x y, (t.live x).op = .freeWaiting y ∨ (t.live x).op = .schedule y →
    (s.live x).code.awaits = none
  sched_state : ∀ x, x ≠ q → t.sched_state x = s.sched_state x
  alt_state : ∀ x, x ≠ q → t.alt_state x = s.alt_state x
  children : t.children = s.children
  parent : t.parent = s.parent

theorem Tells.woken (h : Tells s t q) (x : Fin N) (hx : x ≠ q) : t.woken x = s.woken x :=
  woken_congr (h.code x) (h.sched_state x hx) (h.alt_state x hx) (by rw [h.children])

/-- The books after a wakeup is begun, or a call of a scheduling function done:
what is owed to a process more is a call or a seat, and a call that is done is
a seat. -/
theorem Books.tells (h : Books size seat s) (ht : Tells s t q)
    (hbal : ∀ x, seat' x + t.calls x + s.woken x = seat x + s.calls x + t.woken x)
    (howed : ∀ x, t.calls x ≤ t.woken x)
    (hstate : StateOk (t.live q).code (t.sched_state q) (t.alt_state q)) :
    Books size seat' t where
  balanced x := by
    rw [ht.code]
    have hx := h.balanced x
    have hx' := hbal x
    omega
  owed := howed
  state x := by
    by_cases hxq : x = q
    · rw [hxq]
      exact hstate
    · rw [ht.code, ht.sched_state x hxq, ht.alt_state x hxq]
      exact h.state x
  family x := by
    refine (h.family x).congr (by rw [ht.code]) (by rw [ht.children]) ?_
    unfold Sched.unsynced
    simp only [ht.code, ht.parent]
  unborn x hx := by
    rw [ht.code] at hx
    rw [ht.op x hx, ht.parent]
    exact h.unborn x hx
  waking x y := by
    rw [ht.code]
    exact ht.waking x y

/-- A child that has not called `par_barr_sync` has a parent in a par. -/
theorem Books.parent_waits (h : Books size seat s) {r : Fin N} (hparent : s.parent p = some r)
    (hp : (s.live p).code.synced = false) :
    ∃ nc left, (s.live r).code.family = some (nc, left) ∧
      s.children r = left + s.unsynced r ∧ left + s.unsynced r ≤ nc ∧ 0 < s.unsynced r := by
  have hpos : 0 < s.unsynced r :=
    Finset.card_pos.mpr ⟨p, by simp [hparent, hp]⟩
  have hfam := h.family r
  unfold FamilyOk at hfam
  split at hfam
  next nc left hf => exact ⟨nc, left, hf, hfam.2.1, hfam.2.2, hpos⟩
  next => omega

theorem awaits_of_family {code : Code} {nc left : Nat} (h : code.family = some (nc, left)) :
    code.awaits = some (.par nc) := by
  unfold Code.family at h
  split at h <;> simp_all [Code.awaits]

theorem woken_par (nc : Nat) (h : (s.live p).code.awaits = some (.par nc)) :
    s.woken p = if nc ≠ 0 ∧ s.children p = 0 then 1 else 0 := by
  simp [woken, h, met]

theorem woken_none (h : (s.live p).code.awaits = none) : s.woken p = 0 := by
  simp [woken, h]

/-- What `par_barr_sync` does. -/
theorem par_barr_sync_fields (s : Sched N U) (p r : Fin N) :
    (∀ x, x ≠ p → (s.par_barr_sync p r).live x = s.live x) ∧
      (s.par_barr_sync p r).live p =
        ⟨.ending, if s.children r = 1 then .schedule r else (s.live p).op,
          (s.live p).inside⟩ ∧
      (s.par_barr_sync p r).children = Function.update s.children r (s.children r - 1) ∧
      (s.par_barr_sync p r).sched_state = s.sched_state ∧
      (s.par_barr_sync p r).alt_state = s.alt_state ∧
      (s.par_barr_sync p r).parent = s.parent := by
  unfold par_barr_sync
  dsimp only
  split
  next h =>
    refine ⟨fun x hx => ?_, ?_, rfl, rfl, rfl, rfl⟩
    · simp [doing, goto, hx]
    · simp [doing, goto]
  next h =>
    refine ⟨fun x hx => ?_, ?_, rfl, rfl, rfl, rfl⟩
    · simp [goto, hx]
    · simp [goto]

/-- **The barrier.**  The last child to call `par_barr_sync` is the one that
goes on to schedule the parent. -/
theorem Books.sync {r : Fin N} (h : Books size seat s) (hcode : (s.live p).code = .own)
    (hop : (s.live p).op = .none) (hparent : s.parent p = some r) :
    Books size seat (s.par_barr_sync p r) := by
  obtain ⟨hlive, hp, hchildren, hsched, halt, hpar⟩ := par_barr_sync_fields s p r
  set t := s.par_barr_sync p r with ht
  obtain ⟨nc, left, hfam, hcount, hle, hpos⟩ := h.parent_waits hparent (by rw [hcode]; rfl)
  have hrp : r ≠ p := by
    intro hrp
    rw [hrp, hcode] at hfam
    cases hfam
  have hcode_r : (t.live r).code = (s.live r).code := by rw [hlive r hrp]
  have hawaits := awaits_of_family hfam
  -- who is about to schedule the parent, and which children are left
  have hcalls : ∀ x, t.calls x = s.calls x + if x = r ∧ s.children r = 1 then 1 else 0 := by
    intro x
    have hchange := calls_change (s := s) (t := t) (u := p)
      (fun y hy => by rw [hlive y hy]) x
    rw [hp, hop] at hchange
    by_cases hpre : s.children r = 1
    · simpa [hpre, eq_comm (a := r) (b := x)] using hchange
    · simpa [hpre] using hchange
  have hunsynced : ∀ x, t.unsynced x + (if x = r then 1 else 0) = s.unsynced x := by
    intro x
    have hsynced : ∀ y, y ≠ p → t.parent y = s.parent y ∧
        (t.live y).code.synced = (s.live y).code.synced := by
      intro y hy
      rw [hpar, hlive y hy]
      exact ⟨rfl, rfl⟩
    have hchange := unsynced_change hsynced x
    rw [hp, hcode, hparent] at hchange
    simpa [Code.synced, eq_comm (a := r) (b := x)] using hchange
  -- the parent is woken just then
  have hwoken_r : s.woken r = 0 ∧ t.woken r = if s.children r = 1 then 1 else 0 := by
    rw [woken_par nc hawaits, woken_par nc (hcode_r ▸ hawaits), hchildren, Function.update_self]
    constructor
    · rw [if_neg]
      omega
    · congr 1
      simp only [eq_iff_iff]
      omega
  have hwoken_p : s.woken p = 0 ∧ t.woken p = 0 := by
    constructor <;> apply woken_none
    · rw [hcode]
      rfl
    · rw [hp]
      rfl
  have hwoken : ∀ x, x ≠ p → x ≠ r → t.woken x = s.woken x := by
    intro x hxp hxr
    refine woken_congr (by rw [hlive x hxp]) (by rw [hsched]) (by rw [halt]) ?_
    rw [hchildren, Function.update_of_ne hxr]
  constructor
  case balanced =>
    intro x
    have hx := h.balanced x
    rw [hcalls]
    by_cases hxp : x = p
    · subst hxp
      rw [hcode, hwoken_p.1] at hx
      rw [hp, hwoken_p.2, if_neg fun hr => hrp hr.1.symm]
      simpa [Code.base] using hx
    · rw [hlive x hxp]
      by_cases hxr : x = r
      · subst hxr
        rw [hwoken_r.1] at hx
        rw [hwoken_r.2]
        simp only [true_and]
        omega
      · rw [hwoken x hxp hxr, if_neg fun hr => hxr hr.1]
        exact hx
  case owed =>
    intro x
    have hx := h.owed x
    rw [hcalls]
    by_cases hxr : x = r
    · subst hxr
      rw [hwoken_r.1] at hx
      rw [hwoken_r.2]
      simp only [true_and]
      omega
    · rw [if_neg fun hr => hxr hr.1]
      by_cases hxp : x = p
      · subst hxp
        rw [hwoken_p.1] at hx
        omega
      · rw [hwoken x hxp hxr]
        exact hx
  case state =>
    intro x
    rw [hsched, halt]
    by_cases hxp : x = p
    · subst hxp
      have hx := h.state x
      rw [hcode] at hx
      rw [hp]
      exact hx
    · rw [hlive x hxp]
      exact h.state x
  case family =>
    intro x
    have hx := hunsynced x
    by_cases hxr : x = r
    · subst hxr
      have hfx := h.family x
      unfold FamilyOk at hfx ⊢
      rw [hfam] at hfx
      rw [hcode_r, hfam, hchildren, Function.update_self]
      simp only [if_true] at hx hfx ⊢
      refine ⟨hfx.1, ?_, ?_⟩ <;> omega
    · rw [if_neg hxr, Nat.add_zero] at hx
      by_cases hxp : x = p
      · subst hxp
        have hfx := h.family x
        unfold FamilyOk at hfx ⊢
        rw [hcode] at hfx
        rw [hp, hx]
        exact hfx
      · refine (h.family x).congr (by rw [hlive x hxp]) ?_ hx
        rw [hchildren, Function.update_of_ne hxr]
  case unborn =>
    intro x hx
    by_cases hxp : x = p
    · rw [hxp, hp] at hx
      cases hx
    · rw [hlive x hxp] at hx ⊢
      rw [hpar]
      exact h.unborn x hx
  case waking =>
    intro x y hx
    by_cases hxp : x = p
    · rw [hxp, hp]
      rfl
    · rw [hlive x hxp] at hx ⊢
      exact h.waking x y hx

/-- **A new child** has a seat, and its parent one child less to build. -/
theorem Books.build {kind : ParKind} {nc left : Nat} (h : Books size seat s)
    (hp : (s.live p).code = .par kind nc (left + 1)) (hop : (s.live p).op = .none)
    (hc : (s.live c).code = .unborn)
    (hseat : ∀ x, seat' x = seat x + if x = c then 1 else 0) :
    Books size seat' ((s.make_process p c).goto p (.par kind nc left)) := by
  obtain ⟨horphan, hopc⟩ := h.unborn c hc
  have hcp : c ≠ p := by
    intro hcp
    rw [hcp, hp] at hc
    cases hc
  set t := (s.make_process p c).goto p (.par kind nc left) with ht
  have htc : t.live c = ⟨.own, .none, none⟩ := by simp [ht, goto, make_process, hcp]
  have htp : t.live p = ⟨.par kind nc left, (s.live p).op, (s.live p).inside⟩ := by
    simp [ht, goto, make_process, hcp.symm]
  have hlive : ∀ x, x ≠ c → x ≠ p → t.live x = s.live x := by
    intro x hxc hxp
    simp [ht, goto, make_process, hxc, hxp]
  have hparent : t.parent = Function.update s.parent c (some p) := rfl
  have hsched : ∀ x, x ≠ c → t.sched_state x = s.sched_state x :=
    fun x hx => Function.update_of_ne hx _ _
  have halt : ∀ x, x ≠ c → t.alt_state x = s.alt_state x :=
    fun x hx => Function.update_of_ne hx _ _
  have hopp : (t.live p).op = .none := by rw [htp]; exact hop
  have hcalls : ∀ x, t.calls x = s.calls x := by
    intro x
    unfold Sched.calls
    congr 1
    apply Finset.filter_congr
    intro y _
    by_cases hyc : y = c
    · rw [hyc, htc, hopc]
    · by_cases hyp : y = p
      · rw [hyp, hopp, hop]
      · rw [hlive y hyc hyp]
  have hunsynced : ∀ x, t.unsynced x = s.unsynced x + if x = p then 1 else 0 := by
    intro x
    have hsynced : ∀ y, y ≠ c → t.parent y = s.parent y ∧
        (t.live y).code.synced = (s.live y).code.synced := by
      intro y hy
      refine ⟨by rw [hparent, Function.update_of_ne hy], ?_⟩
      by_cases hyp : y = p
      · rw [hyp, htp, hp]
        rfl
      · rw [hlive y hy hyp]
    have hchange := unsynced_change hsynced x
    rw [htc, hparent, Function.update_self, horphan] at hchange
    simpa [Code.synced, eq_comm (a := p) (b := x)] using hchange
  have hwoken_c : s.woken c = 0 ∧ t.woken c = 0 := by
    constructor <;> apply woken_none
    · rw [hc]
      rfl
    · rw [htc]
      rfl
  have hwoken : ∀ x, x ≠ c → t.woken x = s.woken x := by
    intro x hxc
    by_cases hxp : x = p
    · subst hxp
      rw [woken_par nc (by rw [htp]; rfl), woken_par nc (by rw [hp]; rfl)]
      rfl
    · exact woken_congr (by rw [hlive x hxc hxp]) (hsched x hxc) (halt x hxc) rfl
  constructor
  case balanced =>
    intro x
    have hx := h.balanced x
    rw [hcalls, hseat]
    by_cases hxc : x = c
    · subst hxc
      rw [hc, hwoken_c.1] at hx
      rw [htc, hwoken_c.2]
      simp only [Code.base, if_true] at hx ⊢
      omega
    · rw [hwoken x hxc, if_neg hxc]
      by_cases hxp : x = p
      · subst hxp
        rw [hp] at hx
        rw [htp]
        exact hx
      · rw [hlive x hxc hxp]
        exact hx
  case owed =>
    intro x
    have hx := h.owed x
    rw [hcalls]
    by_cases hxc : x = c
    · subst hxc
      rw [hwoken_c.1] at hx
      omega
    · rw [hwoken x hxc]
      exact hx
  case state =>
    intro x
    by_cases hxc : x = c
    · subst hxc
      rw [htc]
      simp [StateOk, ht, goto, make_process]
    · have hx := h.state x
      rw [hsched x hxc, halt x hxc]
      by_cases hxp : x = p
      · subst hxp
        rw [hp] at hx
        rw [htp]
        exact hx
      · rw [hlive x hxc hxp]
        exact hx
  case family =>
    intro x
    have hx := h.family x
    by_cases hxp : x = p
    · subst hxp
      unfold FamilyOk at hx ⊢
      rw [hp] at hx
      rw [htp, hunsynced, if_pos rfl]
      simp only [Code.family] at hx ⊢
      have hch : t.children x = s.children x := rfl
      rw [hch]
      refine ⟨hx.1, ?_, ?_⟩ <;> omega
    · have hun := hunsynced x
      rw [if_neg hxp, Nat.add_zero] at hun
      by_cases hxc : x = c
      · subst hxc
        unfold FamilyOk at hx ⊢
        rw [hc] at hx
        rw [htc, hun]
        exact hx
      · exact hx.congr (by rw [hlive x hxc hxp]) rfl hun
  case unborn =>
    intro x hx
    by_cases hxc : x = c
    · rw [hxc, htc] at hx
      cases hx
    · by_cases hxp : x = p
      · rw [hxp, htp] at hx
        cases hx
      · rw [hlive x hxc hxp] at hx ⊢
        rw [hparent, Function.update_of_ne hxc]
        exact h.unborn x hx
  case waking =>
    intro x y hx
    by_cases hxc : x = c
    · rw [hxc, htc]
      rfl
    · by_cases hxp : x = p
      · rw [hxp, hopp] at hx
        rcases hx with hx | hx <;> cases hx
      · rw [hlive x hxc hxp] at hx ⊢
        exact h.waking x y hx

end Sched

end Cxp
