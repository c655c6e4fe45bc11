import Cxp.OrderedSearch
import Cxp.SelectReadiness

/-!
# Alternations and the calls made on them

`priSelect` and `fairSelect` work on an `Alternation`, which keeps its guards
and a favorite from call to call.  Every alternation has one process that calls
the selects on it, and may set its guards anew between the calls.

Each call keeps a record of itself: the state it began in, how many guards the
enabling loop reached, the state in which each guard was disabled, where a
writer was seen registered meanwhile, and which channels the process changed.
-/

namespace Cxp

open Meeting OrderedSearch Run

variable {N U : Nat} {A Chan Msg : Type} [DecidableEq A] [DecidableEq Chan]

/-- An alternation; `nrGuards` is the number of its guards. -/
structure Alternation (Chan : Type) where
  guards : List (Guard Chan)
  favorite : Nat

/-- The favorite that a select leaves behind; `none` is the index -1. -/
def favoriteAfter (selected : Option Nat) (nrGuards : Nat) : Nat :=
  let favorite := match selected with
    | none => 0
    | some i => i + 1
  if favorite ≥ nrGuards then favorite - nrGuards else favorite

/-- A call of a select by `proc`. -/
structure Call (N U : Nat) (Chan Msg : Type) where
  proc : Fin N
  fair : Bool
  select : Select Chan
  began : Comm N U Chan Msg
  reached : Nat
  disabled : Nat → Option (Comm N U Chan Msg)
  seen : Chan → Bool
  changed : Chan → Bool

/-- A call that has returned `selected`, in the state `returned`, and has left
`favorite` in the alternation. -/
structure CompletedCall (N U : Nat) (Chan Msg : Type) extends Call N U Chan Msg where
  selected : Option Nat
  returned : Comm N U Chan Msg
  favorite : Nat

/-- The system with its alternations, the calls in progress, and the calls that
have returned, in order. -/
structure Alts (N U : Nat) (A Chan Msg : Type) where
  comm : Comm N U Chan Msg
  alts : A → Alternation Chan
  calling : Fin N → Option (A × Call N U Chan Msg)
  calls : A → List (CompletedCall N U Chan Msg)

/-- What happens next. -/
inductive AltAct (N U : Nat) (A Chan Msg : Type)
  /-- `init_channel_guard`, `init_skip_guard`, `init_timer_guard` -/
  | init_guard (a : A) (i : Nat) (guard : Guard Chan)
  | priSelect (a : A)
  | fairSelect (a : A)
  | comm (act : CommAct N U Chan Msg)

/-- It is the process's own step. -/
def CommAct.isRun (p : Fin N) : CommAct N U Chan Msg → Bool
  | .run q => q = p
  | _ => false

/-- It is a call of a select. -/
def CommAct.isSelect : CommAct N U Chan Msg → Bool
  | .select _ _ => true
  | _ => false

/-- The process registered as a channel's writer. -/
def Comm.writerAt (net : Net N Chan) (s : Comm N U Chan Msg) (c : Chan) : Bool :=
  s.waiting c = some (net.role c .output)

namespace Call

/-- A call begins. -/
def start (net : Net N Chan) (p : Fin N) (fair : Bool) (f : Select Chan)
    (s : Comm N U Chan Msg) : Call N U Chan Msg where
  proc := p
  fair := fair
  select := f
  began := s
  reached := 0
  disabled := fun _ => none
  seen := s.writerAt net
  changed := fun _ => false

/-- The number of guards reached after the step of the process from `s`. -/
def reach (c : Call N U Chan Msg) (s : Comm N U Chan Msg) : Nat :=
  match s.pc c.proc with
  | .enable f k => if k < f.size then max c.reached (k + 1) else c.reached
  | _ => c.reached

/-- The states in which the guards were disabled, after that step. -/
def disable (c : Call N U Chan Msg) (s : Comm N U Chan Msg) :
    Nat → Option (Comm N U Chan Msg) :=
  match s.pc c.proc with
  | .disable _ (k + 1) _ => Function.update c.disabled k (some s)
  | _ => c.disabled

/-- The record after a step from `s` to `t`. -/
def observe (net : Net N Chan) (act : CommAct N U Chan Msg)
    (s t : Comm N U Chan Msg) (c : Call N U Chan Msg) : Call N U Chan Msg :=
  let own := act.isRun c.proc
  { c with
    reached := if own then c.reach s else c.reached
    disabled := if own then c.disable s else c.disabled
    seen := fun ch => c.seen ch || t.writerAt net ch
    changed := fun ch => c.changed ch ||
      (own && (t.waiting ch ≠ s.waiting ch || t.ptr ch ≠ s.ptr ch)) }

end Call

namespace Alts

/-- Everything initialised, with these alternations. -/
def init (N U : Nat) (proc : Fin N) (msg : Msg) (alts : A → Alternation Chan) :
    Alts N U A Chan Msg where
  comm := Comm.init N U Chan proc msg
  alts := alts
  calling := fun _ => none
  calls := fun _ => []

/-- The records after a step to `t`. -/
def observe (net : Net N Chan) (s : Alts N U A Chan Msg) (act : CommAct N U Chan Msg)
    (t : Comm N U Chan Msg) : Alts N U A Chan Msg :=
  { s with
    comm := t
    calling := fun p => (s.calling p).map fun x => (x.1, x.2.observe net act s.comm t) }

/-- A select is called on alternation `a`, to begin at guard `start`. -/
def call (net : Net N Chan) (pun : Fin N → Fin U) (s : Alts N U A Chan Msg) (p : Fin N)
    (a : A) (fair : Bool) (start : Nat) : Option (Alts N U A Chan Msg) :=
  let f : Select Chan := ⟨(s.alts a).guards, start⟩
  (s.comm.step net pun (.select p f)).map fun t =>
    let o := s.observe net (.select p f) t
    { o with calling := Function.update o.calling p (some (a, .start net p fair f s.comm)) }

/-- The call `c` on alternation `a` has returned. -/
def ret (s o : Alts N U A Chan Msg) (a : A) (c : Call N U Chan Msg)
    (selected : Option Nat) : Alts N U A Chan Msg :=
  let favorite := favoriteAfter selected (s.alts a).guards.length
  { o with
    alts := Function.update s.alts a { s.alts a with favorite := favorite }
    calling := Function.update o.calling c.proc none
    calls := Function.update s.calls a (s.calls a ++
      [{ c with selected := selected, returned := s.comm, favorite := favorite }]) }

/-- The call that returns with this step, and its result. -/
def returning (s : Alts N U A Chan Msg) :
    CommAct N U Chan Msg → Option (A × Call N U Chan Msg × Option Nat)
  | .run p =>
      match s.comm.pc p with
      | .selected _ selected => (s.calling p).map fun x => (x.1, x.2, selected)
      | _ => none
  | _ => none

/-- One step.  The selects are called on alternations only, by the process
which owns them. -/
def step (net : Net N Chan) (pun : Fin N → Fin U) (owner : A → Fin N)
    (s : Alts N U A Chan Msg) : AltAct N U A Chan Msg → Option (Alts N U A Chan Msg)
  | .init_guard a i guard =>
      if s.comm.pc (owner a) = .idle then
        some { s with
          alts := Function.update s.alts a
            { s.alts a with guards := (s.alts a).guards.set i guard } }
      else none
  | .priSelect a => s.call net pun (owner a) a false 0
  | .fairSelect a => s.call net pun (owner a) a true (s.alts a).favorite
  | .comm act =>
      if act.isSelect then none
      else (s.comm.step net pun act).map fun t =>
        let o := s.observe net act t
        match s.returning act with
        | some (a, c, selected) => s.ret o a c selected
        | none => o

end Alts

/-- The select that a process is in. -/
def Pc.inSelect : Pc N Chan → Option (Select Chan)
  | .enable f _ | .fill f _ _ | .insert f _ _ | .shouldWait f | .altWait f
  | .disable f _ _ | .remove f _ _ _ | .release f _ _ _ | .finish f _
  | .selected f _ => some f
  | _ => none

/-- The search that a select is, as far as it has come. -/
def Pc.phase : Pc N Chan → Phase Nat
  | .enable f k => .looking (min k f.size)
  | .fill f k _ | .insert f k _ => .looking (min (k + 1) f.size)
  | .shouldWait f | .altWait f => .looking f.size
  | .disable _ k sel | .remove _ k sel _ | .release _ k sel _ => .settling k sel
  | .finish _ sel | .selected _ sel => .settling 0 sel
  | _ => .looking 0

/-- The `k`-th guard looked at is ready. -/
def Select.Ready (net : Net N Chan) (f : Select Chan) (s : Comm N U Chan Msg)
    (k : Nat) : Prop :=
  ∃ g, f.guard k = some g ∧ g.Ready net s

variable {net : Net N Chan} {pun : Fin N → Fin U} {s t u : Comm N U Chan Msg} {p : Fin N}
  {f : Select Chan} {pc' : Pc N Chan}

/-- What a process's own step in a select does. -/
structure Advance (net : Net N Chan) (s t : Comm N U Chan Msg) (p : Fin N)
    (f : Select Chan) : Prop where
  stays : (t.pc p).inSelect = some f
  step : Step f.size f.index (f.Ready net s) (s.pc p).phase (t.pc p).phase
  looks : (t.pc p).phase.place ≤ (s.pc p).phase.place ∨
    ∃ k, s.pc p = .enable f k ∧ k < f.size ∧ (t.pc p).phase.place ≤ k + 1
  settles : ∀ k best best', (s.pc p).phase = .settling (k + 1) best →
    (t.pc p).phase = .settling k best' → ∃ sel, s.pc p = .disable f (k + 1) sel
  touches : ∀ c, t.waiting c ≠ s.waiting c ∨ t.ptr c ≠ s.ptr c →
    ∃ k, f.guard k = some (.chan c) ∧
      (s.pc p = .enable f k ∨ ∃ sel, s.pc p = .disable f (k + 1) sel)

namespace Advance

omit [DecidableEq Chan] in
/-- A step that changes no channel, and does not go on in the search. -/
theorem rest (hin : pc'.inSelect = some f) (hw : u.waiting = s.waiting)
    (hptr : u.ptr = s.ptr) (hphase : pc'.phase = (s.pc p).phase) :
    Advance net s (u.goto p pc') p f := by
  have hpc : (u.goto p pc').pc p = pc' := Function.update_self ..
  constructor
  · rw [hpc]
    exact hin
  · rw [hpc, hphase]
    exact .rest _
  · rw [hpc, hphase]
    exact Or.inl le_rfl
  · intro k best best' hs ht
    rw [hpc, hphase, hs] at ht
    cases ht
  · intro c hc
    change u.waiting c ≠ s.waiting c ∨ u.ptr c ≠ s.ptr c at hc
    rw [hw, hptr] at hc
    exact absurd hc (by simp)

omit [DecidableEq Chan] in
/-- A step of the enabling loop. -/
theorem enable {k : Nat} (hpc : s.pc p = .enable f k) (hin : pc'.inSelect = some f)
    (hstep : Step f.size f.index (f.Ready net s) (.looking (min k f.size)) pc'.phase)
    (hplace : pc'.phase.place ≤ min (k + 1) f.size)
    (htouch : ∀ c, u.waiting c ≠ s.waiting c ∨ u.ptr c ≠ s.ptr c →
      f.guard k = some (.chan c)) :
    Advance net s (u.goto p pc') p f := by
  have hpc' : (u.goto p pc').pc p = pc' := Function.update_self ..
  have hphase : (s.pc p).phase = .looking (min k f.size) := by rw [hpc, Pc.phase]
  constructor
  · rw [hpc']
    exact hin
  · rw [hpc', hphase]
    exact hstep
  · rw [hpc', hphase]
    by_cases hk : k < f.size
    · exact Or.inr ⟨k, hpc, hk, by omega⟩
    · left
      change _ ≤ min k f.size
      omega
  · intro _ _ _ hs
    rw [hphase] at hs
    cases hs
  · intro c hc
    exact ⟨k, htouch c hc, Or.inl hpc⟩

omit [DecidableEq Chan] in
/-- A step of the disabling loop. -/
theorem disable {k : Nat} {sel sel' : Option Nat} (hpc : s.pc p = .disable f (k + 1) sel)
    (hin : pc'.inSelect = some f) (hphase : pc'.phase = .settling k sel')
    (hsel : f.Ready net s k ∧ sel' = some (f.index k) ∨ ¬ f.Ready net s k ∧ sel' = sel)
    (htouch : ∀ c, u.waiting c ≠ s.waiting c ∨ u.ptr c ≠ s.ptr c →
      f.guard k = some (.chan c)) :
    Advance net s (u.goto p pc') p f := by
  have hpc' : (u.goto p pc').pc p = pc' := Function.update_self ..
  have hold : (s.pc p).phase = .settling (k + 1) sel := by rw [hpc, Pc.phase]
  constructor
  · rw [hpc']
    exact hin
  · rw [hpc', hold, hphase]
    obtain ⟨hready, rfl⟩ | ⟨hnot, rfl⟩ := hsel
    · exact .take hready
    · exact .pass hnot
  · rw [hpc', hold, hphase]
    exact Or.inl (Nat.le_succ k)
  · intro k' _ _ hs _
    rw [hold] at hs
    cases hs
    exact ⟨sel, hpc⟩
  · intro c hc
    exact ⟨k, htouch c hc, Or.inr ⟨sel, hpc⟩⟩

omit [DecidableEq Chan] in
/-- The way to the disabling loop from behind the last guard. -/
theorem woken (hpc : s.pc p = .shouldWait f ∨ s.pc p = .altWait f) :
    Advance net s (s.goto p (.disable f f.size none)) p f := by
  have hpc' : (s.goto p (.disable f f.size none)).pc p = .disable f f.size none :=
    Function.update_self ..
  have hphase : (s.pc p).phase = .looking f.size := by
    obtain hpc | hpc := hpc <;> rw [hpc, Pc.phase]
  constructor
  · rw [hpc', Pc.inSelect]
  · rw [hpc', hphase]
    exact .woken
  · rw [hpc', hphase]
    exact Or.inl le_rfl
  · intro _ _ _ hs
    rw [hphase] at hs
    cases hs
  · simp [Comm.goto]

omit [DecidableEq Chan] in
/-- The readiness check of `enable_timeout`, for the time of a guard. -/
theorem timeout {k l j : Nat} {time : Int} (hpc : s.pc p = .enable f k)
    (hl : min (l + 1) f.size ≤ min (k + 1) f.size)
    (hfill : Step f.size f.index (f.Ready net s) (.looking (min k f.size))
      (.looking (min (l + 1) f.size)))
    (hj : j < min (l + 1) f.size) (hg : f.guard j = some (.timer time)) :
    Advance net s (s.goto p (s.enable_timeout f l time)) p f := by
  have htouch : ∀ c, s.waiting c ≠ s.waiting c ∨ s.ptr c ≠ s.ptr c →
      f.guard k = some (.chan c) := by simp
  unfold Comm.enable_timeout
  split
  next hdue =>
    apply Advance.enable hpc rfl
    · exact .found hj ⟨_, hg, hdue⟩
    · exact hl
    · exact htouch
  next => exact Advance.enable hpc rfl hfill hl htouch

/-- The enabling loop. -/
theorem of_enable (hinv : Comm.Inv net s) {k : Nat} (hpc : s.pc p = .enable f k) :
    Advance net s (s.enable p f k) p f := by
  have hread := (hinv.roles p).readBy f k (by rw [hpc]; rfl)
  -- what looking at guard `k` and going on does to the search
  have hlook : ∀ g, f.guard k = some g →
      Step f.size f.index (f.Ready net s) (.looking (min k f.size))
        (.looking (min (k + 1) f.size)) := by
    intro g hg
    have hk := (Select.guard_index hg).1
    have h1 : min k f.size = k := by omega
    have h2 : min (k + 1) f.size = k + 1 := by omega
    rw [h1, h2]
    exact .look hk
  have hstop : ∀ g, f.guard k = some g → g.Ready net s →
      Advance net s (s.goto p (.disable f (k + 1) none)) p f := by
    intro g hg hready
    have hk := (Select.guard_index hg).1
    apply Advance.enable hpc rfl
    · exact .found (Nat.lt_succ_self k) ⟨g, hg, hready⟩
    · change k + 1 ≤ min (k + 1) f.size
      omega
    · simp
  unfold Comm.enable Comm.enable_channel
  split
  next c hguard =>
    have hc : net.role c .input = p :=
      Select.Active.readBy (Select.Active.succ_iff.mpr (Or.inr hguard)) hread
    split
    next q hq =>
      by_cases hqp : q = p
      · have hnot : decide (q ≠ p) = false := by simp [hqp]
        rw [hnot]
        exact Advance.enable hpc rfl (hlook _ hguard) le_rfl (by simp)
      · have hyes : decide (q ≠ p) = true := by simp [hqp]
        rw [hyes]
        exact hstop _ hguard (hinv.registered_writer hc hq hqp)
    next =>
      apply Advance.enable hpc rfl (hlook _ hguard) le_rfl
      intro d hd
      by_cases hdc : d = c
      · rw [hdc]
        exact hguard
      · simp [hdc] at hd
  next hguard => exact hstop _ hguard trivial
  next time hguard =>
    have hk := (Select.guard_index hguard).1
    exact Advance.timeout hpc le_rfl (hlook _ hguard) (by omega) hguard
  next hguard =>
    have hk := Select.guard_eq_none.mp hguard
    have h1 : min k f.size = f.size := by omega
    have h2 : min (f.size + 1) f.size = f.size := by omega
    split
    next hearliest =>
      obtain ⟨j, hj, hg⟩ := Select.guard_of_mem (Select.earliest_mem hearliest)
      apply Advance.timeout (j := j) hpc (by omega) _ (by omega) hg
      rw [h1, h2]
      exact .rest _
    next =>
      apply Advance.rest rfl rfl rfl
      rw [hpc, Pc.phase, Pc.phase, h1]

/-- The disabling loop. -/
theorem of_disable (hinv : Comm.Inv net s) {k : Nat} {sel : Option Nat}
    (hpc : s.pc p = .disable f k sel) (hstep : s.disable p f sel k = some t) :
    Advance net s t p f := by
  have hread := (hinv.roles p).readBy f k (by rw [hpc]; rfl)
  cases k with
  | zero =>
      obtain rfl := Option.some.inj hstep
      exact Advance.rest rfl rfl rfl (by rw [hpc, Pc.phase, Pc.phase])
  | succ k =>
      have hnot : ∀ g, f.guard k = some g → ¬ g.Ready net s → ¬ f.Ready net s k := by
        intro g hg hno hready
        obtain ⟨g', hg', hyes⟩ := hready
        obtain rfl : g = g' := Option.some.inj (hg.symm.trans hg')
        exact hno hyes
      simp only [Comm.disable] at hstep
      split at hstep
      next c hguard =>
        have hc : net.role c .input = p :=
          Select.Active.readBy (Select.Active.succ_iff.mpr (Or.inr hguard)) hread
        obtain rfl := Option.some.inj hstep
        unfold Comm.disable_channel
        split
        next hready =>
          obtain ⟨q, hq⟩ := Option.ne_none_iff_exists'.mp hready.1
          have hqp : q ≠ p := fun heq => hready.2 (heq ▸ hq)
          have hw := hinv.registered_writer hc hq hqp
          exact Advance.disable hpc rfl rfl (Or.inl ⟨⟨_, hguard, hw⟩, rfl⟩) (by simp)
        next hready =>
          apply Advance.disable hpc rfl rfl
          · right
            refine ⟨hnot _ hguard ?_, rfl⟩
            intro hw
            change s.waiting c = _ at hw
            apply hready
            rw [hw, ← hc]
            simp [(net.distinct c).symm]
          · intro d hd
            by_cases hdc : d = c
            · rw [hdc]
              exact hguard
            · simp [hdc] at hd
      next hguard =>
        obtain rfl := Option.some.inj hstep
        exact Advance.disable hpc rfl rfl (Or.inl ⟨⟨_, hguard, trivial⟩, rfl⟩) (by simp)
      next time hguard =>
        obtain rfl := Option.some.inj hstep
        apply Advance.disable hpc rfl rfl _ (by simp)
        by_cases hdue : s.clock ≥ time
        · exact Or.inl ⟨⟨_, hguard, hdue⟩, if_pos hdue⟩
        · exact Or.inr ⟨hnot _ hguard hdue, if_neg hdue⟩
      next => cases hstep

/-- **A process's own step in a select**, but for the last. -/
theorem of_run (hinv : Comm.Inv net s) (hin : (s.pc p).inSelect = some f)
    (hnot : ∀ sel, s.pc p ≠ .selected f sel) (hstep : s.run pun p = some t) :
    Advance net s t p f := by
  cases hpc : s.pc p <;> rw [hpc] at hin hnot <;> simp [Pc.inSelect] at hin <;> subst hin
  case enable k =>
    simp only [Comm.run, hpc, Option.some.injEq] at hstep
    exact hstep ▸ of_enable hinv hpc
  case fill k time =>
    simp only [Comm.run, hpc, Option.some.injEq] at hstep
    subst hstep
    exact Advance.rest rfl rfl rfl (by rw [hpc]; rfl)
  case insert f k desc =>
    simp only [Comm.run, hpc] at hstep
    obtain ⟨x, _, rfl⟩ := Option.map_eq_some_iff.mp hstep
    unfold Comm.enabled
    split
    next => exact Advance.rest rfl rfl rfl (by rw [hpc]; rfl)
    next hk =>
      have hmin : min (k + 1) f.size = f.size := by omega
      exact Advance.rest rfl rfl rfl (by rw [hpc, Pc.phase, Pc.phase, hmin])
  case shouldWait =>
    simp only [Comm.run, hpc, Option.some.injEq] at hstep
    subst hstep
    split
    next => exact Advance.rest rfl rfl rfl (by rw [hpc]; rfl)
    next => exact Advance.woken (Or.inl hpc)
  case altWait =>
    simp only [Comm.run, hpc] at hstep
    split at hstep
    next =>
      obtain rfl := Option.some.inj hstep
      exact Advance.woken (Or.inr hpc)
    next => cases hstep
  case disable k sel =>
    simp only [Comm.run, hpc] at hstep
    exact of_disable hinv hpc hstep
  case remove k sel time =>
    simp only [Comm.run, hpc] at hstep
    obtain ⟨x, _, rfl⟩ := Option.map_eq_some_iff.mp hstep
    cases x.2 <;> exact Advance.rest rfl rfl rfl (by rw [hpc]; rfl)
  case release k sel desc =>
    simp only [Comm.run, hpc, Option.some.injEq] at hstep
    subst hstep
    exact Advance.rest rfl rfl rfl (by rw [hpc]; rfl)
  case finish sel =>
    simp only [Comm.run, hpc, Option.some.injEq] at hstep
    subst hstep
    exact Advance.rest rfl rfl rfl (by rw [hpc]; rfl)
  case selected sel => exact absurd rfl (hnot sel)

end Advance

omit [DecidableEq Chan] in
theorem Pc.channel_of_inSelect (h : pc'.inSelect = some f) : pc'.channel = none := by
  cases pc' <;> simp [Pc.inSelect, Pc.channel] at h ⊢

namespace Call

/-- The `k`-th guard looked at was not ready when it was disabled. -/
def Missed (net : Net N Chan) (c : Call N U Chan Msg) (k : Nat) : Prop :=
  ∃ u g, c.disabled k = some u ∧ c.select.guard k = some g ∧ ¬ g.Ready net u

/-- What holds of a call in progress. -/
structure Holds (net : Net N Chan) (s : Comm N U Chan Msg) (c : Call N U Chan Msg) :
    Prop where
  inSelect : (s.pc c.proc).inSelect = some c.select
  reads : c.select.guards.all (·.readBy net c.proc) = true
  kept : ∀ k, c.select.Ready net c.began k → c.select.Ready net s k
  ordered : Ordered c.select.index (c.select.Ready net c.began) (c.select.Ready net s)
    (c.Missed net) (s.pc c.proc).phase
  reached : (s.pc c.proc).phase.place ≤ c.reached
  seen : ∀ ch, .chan ch ∈ c.select.guards → c.seen ch = true →
    s.waiting ch = some (net.role ch .output)
  changed : ∀ ch, c.changed ch = true → c.select.Active c.reached ch

variable {c : Call N U Chan Msg} {act : CommAct N U Chan Msg}

omit [DecidableEq Chan] in
theorem isRun_iff : act.isRun p = true ↔ act = .run p := by
  cases act <;> simp [CommAct.isRun]

/-- A guard that is ready stays so while the call goes on. -/
theorem Holds.ready (h : c.Holds net s) (hinv : Comm.Inv net s)
    (hstep : s.step net pun act = some t) (k : Nat) (hready : c.select.Ready net s k) :
    c.select.Ready net t k := by
  obtain ⟨g, hg, hready⟩ := hready
  have hmem := List.mem_of_getElem? (Select.guard_index hg).2
  have hread := List.all_eq_true.mp h.reads g hmem
  have hch := Pc.channel_of_inSelect h.inSelect
  exact ⟨g, hg, hinv.ready_kept hstep hch hread hready⟩

/-- A writer seen registered stays so. -/
theorem Holds.writers (h : c.Holds net s) (hinv : Comm.Inv net s)
    (hstep : s.step net pun act = some t) (ch : Chan)
    (hmem : .chan ch ∈ c.select.guards)
    (hseen : (c.observe net act s t).seen ch = true) :
    t.waiting ch = some (net.role ch .output) := by
  have hread := List.all_eq_true.mp h.reads _ hmem
  have hrole : net.role ch .input = c.proc := by simpa [Guard.readBy] using hread
  have hch := Pc.channel_of_inSelect h.inSelect
  rw [← hrole] at hch
  have hcase : c.seen ch = true ∨ t.writerAt net ch = true := by
    simpa [observe] using hseen
  obtain hold | hnew := hcase
  · exact hinv.writer_stays hstep (h.seen ch hmem hold) hch
  · simpa [Comm.writerAt] using hnew

/-- While the process itself does nothing. -/
theorem Holds.others (h : c.Holds net s) (hinv : Comm.Inv net s)
    (hstep : s.step net pun act = some t) (hact : act.isRun c.proc = false)
    (hpc : t.pc c.proc = s.pc c.proc) : (c.observe net act s t).Holds net t := by
  have hready := h.ready hinv hstep
  have hsame : (c.observe net act s t).disabled = c.disabled ∧
      (c.observe net act s t).reached = c.reached := by simp [observe, hact]
  constructor
  · exact hpc ▸ h.inSelect
  · exact h.reads
  · exact fun k hk => hready k (h.kept k hk)
  · change Ordered _ _ _ _ (t.pc c.proc).phase
    rw [hpc]
    apply h.ordered.mono hready
    intro j _ hj
    unfold Missed at hj ⊢
    rw [hsame.1]
    exact hj
  · change (t.pc c.proc).phase.place ≤ _
    rw [hpc, hsame.2]
    exact h.reached
  · exact h.writers hinv hstep
  · intro ch hch
    rw [hsame.2]
    exact h.changed ch (by simpa [observe, hact] using hch)

omit [DecidableEq Chan] in
theorem le_reach (c : Call N U Chan Msg) (s : Comm N U Chan Msg) : c.reached ≤ c.reach s := by
  unfold reach
  split
  · split <;> omega
  · exact le_rfl

omit [DecidableEq Chan] in
/-- Only the guard that the disabling loop is at is recorded anew. -/
theorem disable_of_place_le {j : Nat} {v : Comm N U Chan Msg}
    (hj : (s.pc c.proc).phase.place ≤ j) (hv : c.disabled j = some v) :
    c.disable s j = some v := by
  have hcase : c.disable s = c.disabled ∨ ∃ f k sel, s.pc c.proc = .disable f (k + 1) sel ∧
      c.disable s = Function.update c.disabled k (some s) := by
    unfold disable
    split
    next f k sel hpc => exact Or.inr ⟨f, k, sel, hpc, rfl⟩
    next => exact Or.inl rfl
  obtain heq | ⟨f, k, sel, hpc, heq⟩ := hcase
  · rw [heq, hv]
  · rw [hpc] at hj
    have hne : j ≠ k := by
      change k + 1 ≤ j at hj
      omega
    rw [heq, Function.update_of_ne hne, hv]

/-- With a step of the process. -/
theorem Holds.own (h : c.Holds net s) (hinv : Comm.Inv net s)
    (hnot : ∀ sel, s.pc c.proc ≠ .selected c.select sel)
    (hstep : s.run pun c.proc = some t) :
    (c.observe net (.run c.proc) s t).Holds net t := by
  have hstep' : s.step net pun (.run c.proc) = some t := hstep
  have hready := h.ready hinv hstep'
  have hadv := Advance.of_run hinv h.inSelect hnot hstep
  have hreach : (c.observe net (.run c.proc) s t).reached = c.reach s := by
    simp [observe, CommAct.isRun]
  have hdisabled : (c.observe net (.run c.proc) s t).disabled = c.disable s := by
    simp [observe, CommAct.isRun]
  have hmono : c.reached ≤ c.reach s := c.le_reach s
  constructor
  · exact hadv.stays
  · exact h.reads
  · exact fun k hk => hready k (h.kept k hk)
  · apply h.ordered.step hadv.step h.kept
    · intro j hj
      obtain ⟨g, hg, _⟩ := hj
      exact (Select.guard_index hg).1
    · exact hready
    · intro j hj hmissed
      obtain ⟨u, g, hu, hg, hno⟩ := hmissed
      refine ⟨u, g, ?_, hg, hno⟩
      rw [hdisabled]
      exact c.disable_of_place_le hj hu
    · intro k best best' hs ht hno
      obtain ⟨sel, hpc⟩ := hadv.settles k best best' hs ht
      cases hg : c.select.guard k with
      | none => simp [Comm.run, hpc, Comm.disable, hg] at hstep
      | some g =>
          refine ⟨s, g, ?_, hg, fun hready => hno ⟨g, hg, hready⟩⟩
          rw [hdisabled, disable, hpc]
          exact Function.update_self ..
  · change (t.pc c.proc).phase.place ≤ _
    rw [hreach]
    obtain hle | ⟨k, hpc, hk, hle⟩ := hadv.looks
    · exact hle.trans (h.reached.trans hmono)
    · rw [reach, hpc]
      simp only [hk, if_true]
      omega
  · exact h.writers hinv hstep'
  · intro ch hch
    have hcase : c.changed ch = true ∨ t.waiting ch ≠ s.waiting ch ∨ t.ptr ch ≠ s.ptr ch := by
      simpa [observe, CommAct.isRun] using hch
    rw [hreach]
    obtain hold | hnew := hcase
    · exact (h.changed ch hold).mono hmono
    · obtain ⟨k, hg, hpc⟩ := hadv.touches ch hnew
      have hk := (Select.guard_index hg).1
      refine ⟨k, ?_, hg⟩
      obtain hpc | ⟨sel, hpc⟩ := hpc
      · rw [reach, hpc]
        simp only [hk, if_true]
        omega
      · have hplace := h.reached
        rw [hpc] at hplace
        exact lt_of_lt_of_le hplace hmono

/-- **A call in progress**, whoever's step it is, until it returns. -/
theorem Holds.step (h : c.Holds net s) (hinv : Comm.Inv net s)
    (hstep : s.step net pun act = some t)
    (hnot : act = .run c.proc → ∀ sel, s.pc c.proc ≠ .selected c.select sel) :
    (c.observe net act s t).Holds net t := by
  by_cases hown : act = .run c.proc
  · subst hown
    exact h.own hinv (hnot rfl) hstep
  have hrun : act.isRun c.proc = false := by
    rw [← Bool.not_eq_true, isRun_iff]
    exact hown
  apply h.others hinv hstep hrun
  refine (Comm.others_leave hstep ?_).1
  -- a process in a select calls nothing else
  intro hactor
  have hidle : s.pc c.proc ≠ .idle := by
    intro hpc
    have hin := h.inSelect
    rw [hpc] at hin
    cases hin
  cases act with
  | run q =>
      obtain rfl := Option.some.inj hactor
      exact hown rfl
  | tick δ => cases hactor
  | interrupt π => cases hactor
  | handle π => cases hactor
  | «in» ch =>
      rw [← Option.some.inj hactor] at hidle
      simp [Comm.step, hidle] at hstep
  | out ch msg =>
      rw [← Option.some.inj hactor] at hidle
      simp [Comm.step, hidle] at hstep
  | select q f =>
      rw [← Option.some.inj hactor] at hidle
      simp [Comm.step, hidle] at hstep

/-- A call that begins. -/
theorem holds_start (fair : Bool) (hstep : s.step net pun (.select p f) = some t) :
    (start net p fair f s).Holds net t := by
  obtain ⟨hcond, hstep⟩ := Option.ite_none_right_eq_some.mp hstep
  obtain rfl := Option.some.inj hstep
  constructor
  · simp [start, Comm.goto, Pc.inSelect]
  · exact hcond.2
  · intro k hready
    obtain ⟨g, hg, hready⟩ := hready
    refine ⟨g, hg, ?_⟩
    cases g <;> exact hready
  · simp [start, Comm.goto, Pc.phase, Ordered]
  · simp [start, Comm.goto, Pc.phase, Phase.place]
  · intro ch _ hseen
    have hw : s.waiting ch = some (net.role ch .output) := by
      simpa [start, Comm.writerAt] using hseen
    exact hw
  · simp [start]

end Call

/-- A process whose select returns waits on no channel. -/
theorem Comm.Inv.not_waiting (h : Comm.Inv net s) {sel : Option Nat}
    (hpc : s.pc p = .selected f sel) (ch : Chan) : s.waiting ch ≠ some p := by
  have haway : ∀ e, net.role ch e = p → s.party net ch e = .away := by
    intro e he
    rw [Comm.party, he, hpc, Pc.party]
  intro hw
  obtain h1 | ⟨h1, _, h3⟩ | ⟨h1, _, h3⟩ | ⟨h1, _, h3⟩ := (h.meets ch).holder
  · exact absurd (hw.symm.trans h1) (by simp)
  · have hparty := haway .output (Option.some.inj (h1.symm.trans hw))
    change (s.party net ch .output).waits = true at h3
    rw [hparty] at h3
    cases h3
  · have hparty := haway .input (Option.some.inj (h1.symm.trans hw))
    change (s.party net ch .input).waits = true at h3
    rw [hparty] at h3
    cases h3
  · have hparty := haway .input (Option.some.inj (h1.symm.trans hw))
    change s.party net ch .input = .alting at h3
    rw [hparty] at h3
    cases h3

/-- A registered writer has its buffer in the channel. -/
theorem Comm.Inv.writer_ptr (h : Comm.Inv net s) {ch : Chan}
    (hw : s.waiting ch = some (net.role ch .output)) :
    s.ptr ch = some (net.role ch .output) := by
  obtain h1 | ⟨_, h2, _⟩ | ⟨h1, _⟩ | ⟨h1, _⟩ := (h.meets ch).holder
  · exact absurd (hw.symm.trans h1) (by simp)
  · exact h2
  · exact absurd (Option.some.inj (h1.symm.trans hw)) (net.distinct ch)
  · exact absurd (Option.some.inj (h1.symm.trans hw)) (net.distinct ch)

/-- A process outside the selects enters one with a call of it only. -/
theorem Comm.away_step {act : CommAct N U Chan Msg} (hstep : s.step net pun act = some t)
    (hin : (s.pc p).inSelect = none) (hact : ∀ f, act ≠ .select p f) :
    (t.pc p).inSelect = none := by
  by_cases hactor : actor net act = some p
  swap
  · rw [(others_leave hstep hactor).1]
    exact hin
  have haway : t.pc p = .idle ∨ (t.pc p).channel ≠ none → (t.pc p).inSelect = none := by
    intro h
    cases hp : t.pc p <;> rw [hp] at h <;> simp [Pc.channel, Pc.inSelect] at h ⊢
  apply haway
  cases step_cases hstep with
  | @run q t hrun =>
      obtain rfl := Option.some.inj hactor
      apply run_call _ hrun
      intro hch
      cases hp : s.pc q <;> rw [hp] at hin hch <;> simp [Pc.channel, Pc.inSelect] at hin hch
      simp [Comm.run, hp] at hrun
  | «in» hidle =>
      obtain rfl := Option.some.inj hactor
      exact Or.inr (by simp [Comm.goto, Pc.channel])
  | out hidle =>
      obtain rfl := Option.some.inj hactor
      exact Or.inr (by simp [Comm.goto, Pc.channel])
  | @select q f hidle hguards =>
      obtain rfl := Option.some.inj hactor
      exact absurd rfl (hact f)
  | tick => cases hactor
  | interrupt hidle => cases hactor
  | handle hhandle => cases hactor

/-- What a call leaves behind, in the system and in its alternation. -/
structure CompletedCall.Proper (net : Net N Chan) (e : CompletedCall N U Chan Msg) : Prop where
  start : e.select.start < e.select.size
  pri : e.fair = false → e.select.start = 0
  kept : ∀ k, e.select.Ready net e.began k → e.select.Ready net e.returned k
  ordered : Ordered e.select.index (e.select.Ready net e.began)
    (e.select.Ready net e.returned) (e.toCall.Missed net) (.settling 0 e.selected)
  favorite : e.favorite = favoriteAfter e.selected e.select.size
  absent : ∀ ch, e.returned.waiting ch ≠ some e.proc
  writers : ∀ ch, .chan ch ∈ e.select.guards → e.seen ch = true →
    e.returned.waiting ch = some (net.role ch .output) ∧
      e.returned.ptr ch = some (net.role ch .output)
  changed : ∀ ch, e.changed ch = true → e.select.Active e.reached ch

omit [DecidableEq Chan] in
/-- A select returns the index of one of its guards. -/
theorem CompletedCall.Proper.selected_lt {e : CompletedCall N U Chan Msg}
    (h : e.Proper net) {i : Nat} (hi : e.selected = some i) : i < e.select.size := by
  have hordered := h.ordered
  rw [hi] at hordered
  obtain ⟨m, _, rfl, _⟩ := hordered
  have hstart := h.start
  exact Nat.mod_lt _ (by omega)

omit [DecidableEq Chan] in
/-- The favorite that is left behind is the guard behind the selected one. -/
theorem CompletedCall.Proper.favorite_eq {e : CompletedCall N U Chan Msg}
    (h : e.Proper net) {i : Nat} (hi : e.selected = some i) :
    e.favorite = (i + 1) % e.select.size := by
  have hlt := h.selected_lt hi
  rw [h.favorite, hi, favoriteAfter]
  split
  next hge =>
    have hsize : i + 1 = e.select.size := by omega
    rw [hsize, Nat.sub_self, Nat.mod_self]
  next hge => rw [Nat.mod_eq_of_lt (by omega)]

omit [DecidableEq Chan] in
theorem CompletedCall.Proper.favorite_lt {e : CompletedCall N U Chan Msg}
    (h : e.Proper net) : e.favorite < e.select.size := by
  have hstart := h.start
  cases hsel : e.selected with
  | none =>
      rw [h.favorite, hsel, favoriteAfter]
      split <;> omega
  | some i =>
      rw [h.favorite_eq hsel]
      exact Nat.mod_lt _ (by omega)

/-- **A call that returns.** -/
theorem Call.Holds.returns {c : Call N U Chan Msg} (h : c.Holds net s)
    (hinv : Comm.Inv net s) {sel : Option Nat} (hpc : s.pc c.proc = .selected f sel)
    (hstart : c.select.start < c.select.size) (hpri : c.fair = false → c.select.start = 0) :
    CompletedCall.Proper net
      { c with
        selected := sel
        returned := s
        favorite := favoriteAfter sel c.select.size } where
  start := hstart
  pri := hpri
  kept := h.kept
  ordered := by
    have hordered := h.ordered
    rw [hpc] at hordered
    exact hordered
  favorite := rfl
  absent := hinv.not_waiting hpc
  writers := by
    intro ch hmem hseen
    have hw := h.seen ch hmem hseen
    exact ⟨hw, hinv.writer_ptr hw⟩
  changed := h.changed

namespace Alts

variable {owner : A → Fin N} {a : A} {c : Call N U Chan Msg}

/-- The calls that have returned, on an alternation of process `p`. -/
structure Log (net : Net N Chan) (p : Fin N) (alt : Alternation Chan)
    (calls : List (CompletedCall N U Chan Msg)) : Prop where
  bound : alt.favorite < alt.guards.length
  proper : ∀ e ∈ calls, e.Proper net ∧ e.proc = p
  sized : ∀ e ∈ calls, e.select.size = alt.guards.length
  chained : calls.IsChain fun e e' => e'.fair = true → e'.select.start = e.favorite
  last : ∀ e ∈ calls.getLast?, alt.favorite = e.favorite

/-- A call in progress on an alternation. -/
structure InProgress (net : Net N Chan) (alt : Alternation Chan) (s : Comm N U Chan Msg)
    (c : Call N U Chan Msg) : Prop where
  guards : c.select.guards = alt.guards
  start : c.select.start = if c.fair then alt.favorite else 0
  holds : c.Holds net s

/-- The invariant of the alternations. -/
structure Sound (net : Net N Chan) (owner : A → Fin N) (s : Alts N U A Chan Msg) : Prop where
  comm : Comm.Inv net s.comm
  idle : ∀ p, s.calling p = none → (s.comm.pc p).inSelect = none
  owned : ∀ p a c, s.calling p = some (a, c) → c.proc = p ∧ owner a = p
  calling : ∀ p a c, s.calling p = some (a, c) → InProgress net (s.alts a) s.comm c
  log : ∀ a, Log net (owner a) (s.alts a) (s.calls a)

variable {s s' : Alts N U A Chan Msg} {act : AltAct N U A Chan Msg}
  {cact : CommAct N U Chan Msg} {t : Comm N U Chan Msg}

omit [DecidableEq A] in
theorem sound_init (proc : Fin N) (msg : Msg) (alts : A → Alternation Chan)
    (halts : ∀ a, (alts a).favorite < (alts a).guards.length) :
    Sound net owner (init N U proc msg alts) where
  comm := Comm.inv_init proc msg
  idle := fun _ _ => rfl
  owned := by simp [init]
  calling := by simp [init]
  log := by
    intro a
    constructor <;> simp [init, halts]

/-- A guard is set anew. -/
theorem Sound.init_guard (h : Sound net owner s) {alt : Alternation Chan}
    (hidle : s.comm.pc (owner a) = .idle) (hfavorite : alt.favorite = (s.alts a).favorite)
    (hlength : alt.guards.length = (s.alts a).guards.length) :
    Sound net owner { s with alts := Function.update s.alts a alt } := by
  refine ⟨h.comm, h.idle, h.owned, ?_, ?_⟩
  · intro p b c hc
    have hcall := h.calling p b c hc
    obtain ⟨hproc, howner⟩ := h.owned p b c hc
    have hb : b ≠ a := by
      intro heq
      have hin := hcall.holds.inSelect
      rw [hproc, ← howner, heq, hidle] at hin
      cases hin
    have halts : Function.update s.alts a alt b = s.alts b := Function.update_of_ne hb _ _
    change InProgress net (Function.update s.alts a alt b) s.comm c
    rw [halts]
    exact hcall
  · intro b
    change Log net (owner b) (Function.update s.alts a alt b) (s.calls b)
    by_cases hb : b = a
    · subst hb
      obtain ⟨hbound, hproper, hsized, hchained, hlast⟩ := h.log b
      rw [Function.update_self]
      exact ⟨by omega, hproper, hlength ▸ hsized, hchained, hfavorite ▸ hlast⟩
    · rw [Function.update_of_ne hb]
      exact h.log b

omit [DecidableEq A] in
/-- A call in progress, with a step of the system on which it does not return. -/
theorem Sound.observe_calling (h : Sound net owner s)
    (hstep : s.comm.step net pun cact = some t) {c' : Call N U Chan Msg}
    (hc : (s.observe net cact t).calling p = some (a, c'))
    (hnot : ∀ f sel, cact = .run p → s.comm.pc p ≠ .selected f sel) :
    c'.proc = p ∧ owner a = p ∧ InProgress net (s.alts a) t c' := by
  obtain ⟨x, hx, heq⟩ := Option.map_eq_some_iff.mp hc
  obtain ⟨b, c⟩ := x
  cases heq
  obtain ⟨hproc, howner⟩ := h.owned p b c hx
  obtain ⟨hguards, hstart, hholds⟩ := h.calling p b c hx
  refine ⟨hproc, howner, hguards, hstart, ?_⟩
  apply hholds.step h.comm hstep
  rw [hproc]
  exact fun heq sel => hnot _ sel heq

omit [DecidableEq A] in
/-- A step of the system on which no call returns. -/
theorem Sound.observe (h : Sound net owner s) (hstep : s.comm.step net pun cact = some t)
    (hsel : cact.isSelect = false) (hret : s.returning cact = none) :
    Sound net owner (s.observe net cact t) := by
  have hcalls : ∀ p a c', (s.observe net cact t).calling p = some (a, c') →
      c'.proc = p ∧ owner a = p ∧ InProgress net (s.alts a) t c' := by
    intro p a c' hc
    obtain ⟨x, hx, _⟩ := Option.map_eq_some_iff.mp hc
    apply h.observe_calling hstep hc
    intro f sel heq hpc
    simp [heq, returning, hpc, hx] at hret
  refine ⟨h.comm.step hstep, ?_, ?_, ?_, h.log⟩
  · intro p hp
    apply Comm.away_step hstep (h.idle p (Option.map_eq_none_iff.mp hp))
    intro f heq
    rw [heq] at hsel
    cases hsel
  · intro p b c' hc
    obtain ⟨hproc, howner, _⟩ := hcalls p b c' hc
    exact ⟨hproc, howner⟩
  · intro p b c' hc
    exact (hcalls p b c' hc).2.2

omit [DecidableEq A] in
/-- A call begins. -/
theorem Sound.call (h : Sound net owner s) {fair : Bool} {start : Nat}
    (hstart : start = if fair then (s.alts a).favorite else 0)
    (hstep : s.call net pun (owner a) a fair start = some s') : Sound net owner s' := by
  obtain ⟨t, hcomm, rfl⟩ := Option.map_eq_some_iff.mp hstep
  have hcalls : ∀ p b c', Function.update
      (s.observe net (.select (owner a) ⟨(s.alts a).guards, start⟩) t).calling (owner a)
        (some (a, .start net (owner a) fair ⟨(s.alts a).guards, start⟩ s.comm)) p =
          some (b, c') →
      c'.proc = p ∧ owner b = p ∧ InProgress net (s.alts b) t c' := by
    intro p b c' hc
    by_cases hpa : p = owner a
    · subst hpa
      rw [Function.update_self] at hc
      cases hc
      exact ⟨rfl, rfl, rfl, hstart, Call.holds_start fair hcomm⟩
    · rw [Function.update_of_ne hpa] at hc
      apply h.observe_calling hcomm hc
      simp
  have hidle : ∀ p, Function.update
      (s.observe net (.select (owner a) ⟨(s.alts a).guards, start⟩) t).calling (owner a)
        (some (a, .start net (owner a) fair ⟨(s.alts a).guards, start⟩ s.comm)) p = none →
      (t.pc p).inSelect = none := by
    intro p hp
    by_cases hpa : p = owner a
    · rw [hpa, Function.update_self] at hp
      cases hp
    rw [Function.update_of_ne hpa] at hp
    apply Comm.away_step hcomm (h.idle p (Option.map_eq_none_iff.mp hp))
    intro f heq
    cases heq
    exact hpa rfl
  refine ⟨h.comm.step hcomm, hidle, ?_, ?_, h.log⟩
  · intro p b c' hc
    obtain ⟨hproc, howner, _⟩ := hcalls p b c' hc
    exact ⟨hproc, howner⟩
  · intro p b c' hc
    exact (hcalls p b c' hc).2.2

omit [DecidableEq A] [DecidableEq Chan] in
/-- What it means that a call returns. -/
theorem returning_eq {sel : Option Nat} (h : s.returning cact = some (a, c, sel)) :
    ∃ p f, cact = .run p ∧ s.comm.pc p = .selected f sel ∧ s.calling p = some (a, c) := by
  unfold returning at h
  split at h
  next p =>
    split at h
    next f selected hpc =>
      obtain ⟨x, hx, heq⟩ := Option.map_eq_some_iff.mp h
      cases heq
      exact ⟨p, f, rfl, hpc, hx⟩
    next => cases h
  next => cases h

omit [DecidableEq Chan] in
/-- The alternation's log with the call that returns. -/
theorem Log.append {alt : Alternation Chan} {calls : List (CompletedCall N U Chan Msg)}
    {e : CompletedCall N U Chan Msg} (h : Log net p alt calls) (he : e.Proper net)
    (hproc : e.proc = p) (hsize : e.select.size = alt.guards.length)
    (hstart : e.fair = true → e.select.start = alt.favorite) :
    Log net p { alt with favorite := e.favorite } (calls ++ [e]) where
  bound := by
    have hbound := he.favorite_lt
    rw [hsize] at hbound
    exact hbound
  proper := by
    intro x hx
    obtain hx | hx := List.mem_append.mp hx
    · exact h.proper x hx
    · rw [List.mem_singleton.mp hx]
      exact ⟨he, hproc⟩
  sized := by
    intro x hx
    obtain hx | hx := List.mem_append.mp hx
    · exact h.sized x hx
    · rw [List.mem_singleton.mp hx]
      exact hsize
  chained := by
    apply h.chained.append (List.isChain_singleton e)
    intro x hx y hy hfair
    obtain rfl : e = y := by simpa using hy
    rw [hstart hfair]
    exact h.last x hx
  last := by
    intro x hx
    obtain rfl : e = x := by simpa using hx
    rfl

/-- A call returns. -/
theorem Sound.ret (h : Sound net owner s) (hstep : s.comm.step net pun cact = some t)
    {sel : Option Nat} (hret : s.returning cact = some (a, c, sel)) :
    Sound net owner (s.ret (s.observe net cact t) a c sel) := by
  obtain ⟨p, f, rfl, hpc, hc⟩ := returning_eq hret
  obtain ⟨hproc, howner⟩ := h.owned p a c hc
  obtain ⟨hguards, hstart, hholds⟩ := h.calling p a c hc
  have hsize : c.select.size = (s.alts a).guards.length := congrArg List.length hguards
  have hbound := (h.log a).bound
  have hother : ∀ q b c', Function.update (s.observe net (.run p) t).calling c.proc none q =
      some (b, c') →
      q ≠ p ∧ c'.proc = q ∧ owner b = q ∧ InProgress net (s.alts b) t c' := by
    intro q b c' hc'
    have hqp : q ≠ p := by
      intro heq
      rw [heq, hproc, Function.update_self] at hc'
      cases hc'
    rw [hproc, Function.update_of_ne hqp] at hc'
    refine ⟨hqp, h.observe_calling hstep hc' ?_⟩
    intro f sel heq
    cases heq
    exact absurd rfl hqp
  refine ⟨h.comm.step hstep, ?_, ?_, ?_, ?_⟩
  · intro q hq
    change Function.update (s.observe net (.run p) t).calling c.proc none q = none at hq
    change (t.pc q).inSelect = none
    by_cases hqp : q = p
    · simp only [Comm.step, Comm.run, hpc, Option.some.injEq] at hstep
      rw [← hstep, hqp]
      simp [Comm.goto, Pc.inSelect]
    · rw [hproc, Function.update_of_ne hqp] at hq
      apply Comm.away_step hstep (h.idle q (Option.map_eq_none_iff.mp hq))
      simp
  · intro q b c' hc'
    obtain ⟨_, hproc', howner', _⟩ := hother q b c' hc'
    exact ⟨hproc', howner'⟩
  · intro q b c' hc'
    obtain ⟨hqp, hproc', howner', hcall⟩ := hother q b c' hc'
    have hb : b ≠ a := by
      intro heq
      rw [heq, howner] at howner'
      exact hqp howner'.symm
    change InProgress net (Function.update s.alts a _ b) t c'
    rw [Function.update_of_ne hb]
    exact hcall
  · intro b
    change Log net (owner b) (Function.update s.alts a _ b) (Function.update s.calls a _ b)
    by_cases hb : b = a
    · subst hb
      rw [Function.update_self, Function.update_self]
      have hproper := hholds.returns h.comm (hproc.symm ▸ hpc) ?_ ?_
      · rw [← hsize]
        exact (h.log b).append hproper (hproc.trans howner.symm) hsize (by
          intro hfair
          change c.fair = true at hfair
          rw [hfair] at hstart
          exact hstart)
      · rw [hstart, hsize]
        split <;> omega
      · intro hpri
        rw [hpri] at hstart
        exact hstart
    · rw [Function.update_of_ne hb, Function.update_of_ne hb]
      exact h.log b

/-- **One step keeps the alternations sound.** -/
theorem Sound.step (h : Sound net owner s) (hstep : s.step net pun owner act = some s') :
    Sound net owner s' := by
  cases act with
  | init_guard a i guard =>
      obtain ⟨hidle, hstep⟩ := Option.ite_none_right_eq_some.mp hstep
      obtain rfl := Option.some.inj hstep
      exact h.init_guard hidle rfl (List.length_set ..)
  | priSelect a =>
      have hcall : s.call net pun (owner a) a false 0 = some s' := hstep
      exact h.call rfl hcall
  | fairSelect a =>
      have hcall : s.call net pun (owner a) a true (s.alts a).favorite = some s' := hstep
      exact h.call rfl hcall
  | comm cact =>
      simp only [Alts.step] at hstep
      split at hstep
      next => cases hstep
      next hsel =>
        obtain ⟨t, hcomm, rfl⟩ := Option.map_eq_some_iff.mp hstep
        split
        next a c sel hret => exact h.ret hcomm hret
        next hret => exact h.observe hcomm (by simpa using hsel) hret

end Alts

end Cxp
