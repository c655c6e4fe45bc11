import Cxp.LockedSections

/-!
# Mutexes (`mutex.c`)

A mutex is a flag.  `claim_mutex` exchanges it for true until the old value was
false, and yields the processor after every five attempts; `release_mutex` stores
false.  Any number of processes go through sections under any number of mutexes,
statement by statement.

* At any moment a mutex is claimed exactly if one process is in a section under it,
  and then it is the only one (`mutexes_exclusive`).
* The loop adds nothing to a lock that is claimed in one step (`Mutexes.exec_locked`),
  so that sections under a mutex are atomic (`Mutexes.simulates`).
-/

namespace Cxp

open Run

/-- The number of exchanges before the processor is yielded. -/
def TRIALS_BEFORE_YIELD : Nat := 5

structure Mutex where
  claimed : Bool
  deriving DecidableEq

def init_mutex : Mutex := ⟨false⟩

/-- Exchange the flag for true; the old value comes first. -/
def Mutex.exchange (mutex : Mutex) : Bool × Mutex := (mutex.claimed, ⟨true⟩)

def release_mutex (_ : Mutex) : Mutex := ⟨false⟩

/-- Where a process stands. -/
inductive MutexStage (S α L P : Type*)
  | outside
  /-- in `claim_mutex`, `i` exchanges behind it since it has begun or yielded -/
  | claiming (a : α) (i : Nat)
  /-- in `claim_mutex`, about to yield -/
  | yielding (a : α)
  /-- the mutex is claimed, and the rest of the section before it -/
  | inside (a : α) (l : L) (r : Section S P)

/-- The memory, the mutexes, and the processes that claim them. -/
structure Mutexes (S α A L P : Type*) where
  mem : S
  mutex : L → Mutex
  stage : A → MutexStage S α L P

inductive MutexAct (α A : Type*)
  /-- a step that needs no mutex -/
  | plain (a : α)
  /-- the process calls `claim_mutex` for its section -/
  | claim_mutex (p : A) (a : α)
  /-- it takes its next step in `claim_mutex` or in the section -/
  | goes (p : A)

/-- The section that the process is in. -/
def MutexStage.section? {S α L P : Type*} : MutexStage S α L P → Option (α × L × Section S P)
  | .inside a l r => some (a, l, r)
  | _ => none

namespace Mutexes

variable {S α A L P : Type*} [DecidableEq L] [DecidableEq A]

def start (s : S) : Mutexes S α A L P := ⟨s, fun _ => init_mutex, fun _ => .outside⟩

def goto (m : Mutexes S α A L P) (p : A) (stage : MutexStage S α L P) : Mutexes S α A L P :=
  { m with stage := Function.update m.stage p stage }

/-- One round of the loop of `claim_mutex`: the `i`-th exchange since it has begun or
yielded. -/
def exchange (m : Mutexes S α A L P) (p : A) (a : α) (i : Nat) (l : L) (c : Section S P) :
    Mutexes S α A L P :=
  let (oldvalue, mutex) := (m.mutex l).exchange
  { m with mutex := Function.update m.mutex l mutex }.goto p
    (if oldvalue = false then .inside a l c
    else if i + 1 < TRIALS_BEFORE_YIELD then .claiming a (i + 1) else .yielding a)

/-- The next step of a process in `claim_mutex` or in its section. -/
def goes (M : Sectioned S α A L P) (m : Mutexes S α A L P) (p : A) :
    Option (Mutexes S α A L P) :=
  match m.stage p with
  | .outside => none
  | .claiming a i => (M.code m.mem a).map fun x => m.exchange p a i x.1 x.2
  | .yielding a => some (m.goto p (.claiming a 0))
  | .inside a l r =>
      match r with
      | .done =>
          some ({ m with
            mutex := Function.update m.mutex l (release_mutex (m.mutex l)) }.goto p .outside)
      | .read k => some (m.goto p (.inside a l (k (M.get m.mem l))))
      | .write f r =>
          some ({ m with mem := M.put m.mem l (f (M.get m.mem l)) }.goto p (.inside a l r))
      | .act f r => (f m.mem).map fun s => { m with mem := s }.goto p (.inside a l r)

/-- A process that is outside takes any step; if the step is a section, it has to
claim the mutex first. -/
def step (M : Sectioned S α A L P) (m : Mutexes S α A L P) :
    MutexAct α A → Option (Mutexes S α A L P)
  | .plain a =>
      if (M.code m.mem a).isNone ∧
          (M.agent a).all fun p => match m.stage p with | .outside => true | _ => false then
        (M.step m.mem a).map fun s => { m with mem := s }
      else none
  | .claim_mutex p a =>
      match m.stage p with
      | .outside =>
          if M.agent a = some p ∧ (M.code m.mem a).isSome then some (m.goto p (.claiming a 0))
          else none
      | _ => none
  | .goes p => m.goes M p

/-- The mutexes as locks that are claimed in one step. -/
def locked (m : Mutexes S α A L P) : Locked S α A L P :=
  ⟨m.mem, fun l => (m.mutex l).claimed, fun p => (m.stage p).section?⟩

/-- What happens to the locks: an exchange that finds false claims one. -/
def lockedActs (M : Sectioned S α A L P) (m : Mutexes S α A L P) :
    MutexAct α A → List (LockedAct α A)
  | .plain a => [.plain a]
  | .claim_mutex _ _ => []
  | .goes p =>
      match m.stage p with
      | .claiming a _ =>
          match M.code m.mem a with
          | some (l, _) => if (m.mutex l).claimed then [] else [.enter p a]
          | none => []
      | .inside _ _ _ => [.goes p]
      | _ => []

/-- The steps that the machine of whole sections takes. -/
def obs (M : Sectioned S α A L P) (m : Mutexes S α A L P) (act : MutexAct α A) : List α :=
  trace (Locked.step M) Locked.obs m.locked (m.lockedActs M act)

/-- The process is in `claim_mutex` for the section of the step `a`. -/
def Claims (m : Mutexes S α A L P) (p : A) (a : α) : Prop :=
  (∃ i, m.stage p = .claiming a i) ∨ m.stage p = .yielding a

/-- Whose step of a section the process is about to take, it is its own. -/
structure Owned (M : Sectioned S α A L P) (m : Mutexes S α A L P) : Prop where
  claiming : ∀ p a i, m.stage p = .claiming a i → M.agent a = some p
  yielding : ∀ p a, m.stage p = .yielding a → M.agent a = some p

variable {M : Sectioned S α A L P} {m n : Mutexes S α A L P} {p : A}

omit [DecidableEq L] in
@[simp] theorem stage_goto_self (m : Mutexes S α A L P) {stage : MutexStage S α L P} :
    (m.goto p stage).stage p = stage :=
  Function.update_self ..

omit [DecidableEq L] in
theorem stage_goto_of_ne (m : Mutexes S α A L P) {q : A} {stage : MutexStage S α L P} (hq : q ≠ p) :
    (m.goto p stage).stage q = m.stage q :=
  Function.update_of_ne hq ..

omit [DecidableEq L] in
theorem locked_goto (m : Mutexes S α A L P) (p : A) (stage : MutexStage S α L P) :
    (m.goto p stage).locked =
      { m.locked with inside := Function.update m.locked.inside p stage.section? } := by
  have hinside : (fun q => ((m.goto p stage).stage q).section?) =
      Function.update m.locked.inside p stage.section? := by
    funext q
    by_cases hq : q = p
    · rw [hq, Function.update_self, stage_goto_self]
    · rw [Function.update_of_ne hq, stage_goto_of_ne m hq]
      rfl
  rw [← hinside]
  rfl

omit [DecidableEq A] in
theorem claimed_update (m : Mutexes S α A L P) (l : L) (mutex : Mutex) :
    (fun k => (Function.update m.mutex l mutex k).claimed) =
      Function.update m.locked.claimed l mutex.claimed := by
  funext k
  by_cases hk : k = l
  · rw [hk, Function.update_self, Function.update_self]
  · rw [Function.update_of_ne hk, Function.update_of_ne hk]
    rfl

omit [DecidableEq L] in
/-- A process that was in no section and is in none does not show. -/
theorem locked_goto_eq {stage : MutexStage S α L P} (hm : (m.stage p).section? = none)
    (hstage : stage.section? = none) : (m.goto p stage).locked = m.locked := by
  rw [locked_goto, hstage]
  have hself : Function.update m.locked.inside p none = m.locked.inside := by
    rw [← hm]
    exact Function.update_eq_self ..
  rw [hself]

omit [DecidableEq L] in
theorem Owned.goto (h : Owned M m) {stage : MutexStage S α L P} (hagent :
    ∀ a, (∃ i, stage = .claiming a i) ∨ stage = .yielding a → M.agent a = some p) :
    Owned M (m.goto p stage) := by
  refine ⟨fun q a i hq => ?_, fun q a hq => ?_⟩
  · by_cases hqp : q = p
    · rw [hqp, stage_goto_self] at hq
      rw [hqp]
      exact hagent a (Or.inl ⟨i, hq⟩)
    · rw [stage_goto_of_ne m hqp] at hq
      exact h.claiming q a i hq
  · by_cases hqp : q = p
    · rw [hqp, stage_goto_self] at hq
      rw [hqp]
      exact hagent a (Or.inr hq)
    · rw [stage_goto_of_ne m hqp] at hq
      exact h.yielding q a hq

omit [DecidableEq L] [DecidableEq A] in
theorem Owned.mem (h : Owned M m) (s : S) (mutex : L → Mutex) :
    Owned M { m with mem := s, mutex := mutex } :=
  ⟨h.claiming, h.yielding⟩

omit [DecidableEq L] [DecidableEq A] in
theorem owned_start (M : Sectioned S α A L P) (s : S) : Owned M (start s) where
  claiming p a i h := by cases h
  yielding p a h := by cases h

/-- The process goes on in its section, or leaves it: so it does under its lock. -/
theorem locked_inside {a : α} {l : L} {r : Section S P} (h : Owned M m)
    (hstage : m.stage p = .inside a l r) (hstep : m.goes M p = some n) :
    Locked.step M m.locked (.goes p) = some n.locked ∧ Owned M n := by
  have hin : m.locked.inside p = some (a, l, r) := by
    change (m.stage p).section? = _
    rw [hstage]
    rfl
  have hkeep : ∀ (m' : Mutexes S α A L P) (c : Section S P), Owned M m' →
      Owned M (m'.goto p (.inside a l c)) := by
    intro m' c hm'
    apply hm'.goto
    intro b hb
    obtain ⟨i, heq⟩ | heq := hb
    · cases heq
    · cases heq
  unfold Mutexes.goes at hstep
  rw [hstage] at hstep
  simp only [Locked.step, hin, Option.bind_some]
  cases r with
  | done =>
      cases hstep
      refine ⟨?_, (h.mem _ _).goto fun b hb => ?_⟩
      · rw [locked_goto]
        exact congrArg (fun claimed => some (Locked.mk _ claimed _))
          (claimed_update m l (release_mutex (m.mutex l))).symm
      · obtain ⟨i, heq⟩ | heq := hb
        · cases heq
        · cases heq
  | read k =>
      cases hstep
      exact ⟨by rw [locked_goto]; rfl, hkeep _ _ h⟩
  | write f r =>
      cases hstep
      exact ⟨by rw [locked_goto]; rfl, hkeep _ _ (h.mem _ _)⟩
  | act f r =>
      obtain ⟨s, hs, rfl⟩ := Option.map_eq_some_iff.mp hstep
      refine ⟨?_, hkeep _ _ (h.mem _ _)⟩
      rw [locked_goto]
      change (f m.mem).map _ = _
      rw [hs]
      rfl

/-- The exchange finds false. -/
theorem exchange_free {a : α} {i : Nat} {l : L} {c : Section S P}
    (hfree : (m.mutex l).claimed = false) :
    m.exchange p a i l c =
      { m with mutex := Function.update m.mutex l ⟨true⟩ }.goto p (.inside a l c) := by
  simp [exchange, Mutex.exchange, hfree]

/-- The exchange finds true, and changes nothing but how often it has been tried. -/
theorem exchange_claimed {a : α} {i : Nat} {l : L} {c : Section S P}
    (hclaimed : (m.mutex l).claimed = true) :
    m.exchange p a i l c =
      m.goto p (if i + 1 < TRIALS_BEFORE_YIELD then .claiming a (i + 1) else .yielding a) := by
  have hmutex : Function.update m.mutex l ⟨true⟩ = m.mutex := by
    have heq : m.mutex l = ⟨true⟩ := by
      rw [← hclaimed]
    rw [← heq, Function.update_eq_self]
  simp only [exchange, Mutex.exchange, hclaimed, hmutex, Bool.true_eq_false, if_false]

/-- One round of `claim_mutex`: the lock is claimed if it was free. -/
theorem locked_claiming {a : α} {i : Nat} (h : Owned M m) (hstage : m.stage p = .claiming a i)
    (hstep : m.goes M p = some n) :
    exec (Locked.step M) m.locked (m.lockedActs M (.goes p)) = some n.locked ∧ Owned M n := by
  have hagent := h.claiming p a i hstage
  have hout : (m.stage p).section? = none := by
    rw [hstage]
    rfl
  unfold Mutexes.goes at hstep
  rw [hstage] at hstep
  obtain ⟨⟨l, c⟩, hcode, rfl⟩ := Option.map_eq_some_iff.mp hstep
  cases hclaimed : (m.mutex l).claimed with
  | true =>
      have hacts : m.lockedActs M (.goes p) = [] := by
        simp [lockedActs, hstage, hcode, hclaimed]
      rw [hacts, exchange_claimed hclaimed]
      refine ⟨congrArg some (locked_goto_eq hout ?_).symm, h.goto fun b hb => ?_⟩
      · split <;> rfl
      · split at hb <;> obtain ⟨j, heq⟩ | heq := hb <;> cases heq <;> exact hagent
  | false =>
      have hacts : m.lockedActs M (.goes p) = [.enter p a] := by
        simp [lockedActs, hstage, hcode, hclaimed]
      rw [hacts, exchange_free hclaimed]
      refine ⟨?_, (h.mem _ _).goto fun b hb => ?_⟩
      · have hfree : m.locked.claimed l = false := hclaimed
        have hnone : (m.locked.inside p).isNone = true := by
          change ((m.stage p).section?).isNone = true
          rw [hout]
          rfl
        have hmem : M.code m.locked.mem a = some (l, c) := hcode
        simp only [exec, Locked.step, hagent, hnone, hmem, hfree, and_self, if_true,
          Option.bind_some, Bool.false_eq_true, if_false]
        rw [locked_goto]
        exact congrArg (fun claimed => some (Locked.mk _ claimed _))
          (claimed_update m l ⟨true⟩).symm
      · obtain ⟨j, heq⟩ | heq := hb
        · cases heq
        · cases heq

/-- A process in a section goes on in it, or leaves it. -/
theorem stage_goes {a : α} {l : L} {r : Section S P} (hstage : m.stage p = .inside a l r)
    (hstep : m.goes M p = some n) :
    n.stage p = .outside ∨ ∃ c, n.stage p = .inside a l c := by
  unfold Mutexes.goes at hstep
  rw [hstage] at hstep
  cases r with
  | done =>
      cases hstep
      exact Or.inl (stage_goto_self _)
  | read k =>
      cases hstep
      exact Or.inr ⟨_, stage_goto_self _⟩
  | write f r =>
      cases hstep
      exact Or.inr ⟨_, stage_goto_self _⟩
  | act f r =>
      obtain ⟨s, -, rfl⟩ := Option.map_eq_some_iff.mp hstep
      exact Or.inr ⟨_, stage_goto_self _⟩

theorem stage_goes_of_ne {q : A} (hstep : m.goes M q = some n) (hp : p ≠ q) :
    n.stage p = m.stage p := by
  unfold Mutexes.goes at hstep
  cases hstage : m.stage q with
  | outside =>
      rw [hstage] at hstep
      cases hstep
  | claiming a i =>
      rw [hstage] at hstep
      obtain ⟨⟨l, c⟩, -, rfl⟩ := Option.map_eq_some_iff.mp hstep
      exact stage_goto_of_ne _ hp
  | yielding a =>
      rw [hstage] at hstep
      cases hstep
      exact stage_goto_of_ne _ hp
  | inside a l r =>
      rw [hstage] at hstep
      cases r with
      | act f r =>
          obtain ⟨s, -, rfl⟩ := Option.map_eq_some_iff.mp hstep
          exact stage_goto_of_ne _ hp
      | _ =>
          cases hstep
          exact stage_goto_of_ne _ hp

omit [DecidableEq L] in
theorem not_claims {stage : MutexStage S α L P} {a : α} (hout : (∀ i, stage ≠ .claiming a i))
    (hyield : stage ≠ .yielding a) : ¬ (m.goto p stage).Claims p a := by
  intro hp
  unfold Claims at hp
  rw [stage_goto_self] at hp
  obtain ⟨i, hp⟩ | hp := hp
  · exact hout i hp
  · exact hyield hp

/-- A process that is in `claim_mutex` behind its step was there before, for the same
section. -/
theorem claims_goes {a : α} (hstep : m.goes M p = some n) (hp : n.Claims p a) :
    m.Claims p a := by
  cases hstage : m.stage p with
  | outside =>
      unfold Mutexes.goes at hstep
      rw [hstage] at hstep
      cases hstep
  | claiming b i =>
      unfold Mutexes.goes at hstep
      rw [hstage] at hstep
      obtain ⟨⟨l, c⟩, -, rfl⟩ := Option.map_eq_some_iff.mp hstep
      refine Or.inl ⟨i, ?_⟩
      cases hclaimed : (m.mutex l).claimed with
      | true =>
          rw [exchange_claimed hclaimed] at hp
          unfold Claims at hp
          rw [stage_goto_self] at hp
          split at hp <;> obtain ⟨j, heq⟩ | heq := hp <;> cases heq <;> exact hstage
      | false =>
          rw [exchange_free hclaimed] at hp
          exact absurd hp (not_claims (by simp) (by simp))
  | yielding b =>
      unfold Mutexes.goes at hstep
      rw [hstage] at hstep
      cases hstep
      unfold Claims at hp
      rw [stage_goto_self] at hp
      obtain ⟨j, heq⟩ | heq := hp
      · cases heq
        exact Or.inr hstage
      · cases heq
  | inside b l r =>
      obtain hout | ⟨c, hin⟩ := stage_goes hstage hstep
      · obtain ⟨i, hp⟩ | hp := hp
        · cases hout.symm.trans hp
        · cases hout.symm.trans hp
      · obtain ⟨i, hp⟩ | hp := hp
        · cases hin.symm.trans hp
        · cases hin.symm.trans hp

/-- Who is in `claim_mutex` was there before, or has just called it for a section. -/
theorem claims_step {act : MutexAct α A} (hstep : m.step M act = some n) {a : α}
    (hp : n.Claims p a) : m.Claims p a ∨ (M.code m.mem a).isSome := by
  -- a process that stands where it stood
  have hsame : n.stage p = m.stage p → m.Claims p a := by
    intro heq
    unfold Claims at hp ⊢
    rw [heq] at hp
    exact hp
  cases act with
  | plain b =>
      obtain ⟨-, ht⟩ := Option.ite_none_right_eq_some.mp hstep
      obtain ⟨s, -, rfl⟩ := Option.map_eq_some_iff.mp ht
      exact Or.inl hp
  | claim_mutex q b =>
      simp only [step] at hstep
      split at hstep
      next =>
        obtain ⟨⟨-, hcode⟩, ht⟩ := Option.ite_none_right_eq_some.mp hstep
        cases ht
        by_cases hq : p = q
        · right
          rw [hq] at hp
          unfold Claims at hp
          rw [stage_goto_self] at hp
          obtain ⟨i, heq⟩ | heq := hp
          · cases heq
            exact hcode
          · cases heq
        · exact Or.inl (hsame (stage_goto_of_ne m hq))
      next => cases hstep
  | goes q =>
      left
      by_cases hq : p = q
      · rw [hq] at hp ⊢
        exact claims_goes hstep hp
      · exact hsame (stage_goes_of_ne hstep hq)

/-- **What a step does, the locks do, or nothing.** -/
theorem locked_step (h : Owned M m) {act : MutexAct α A} (hstep : m.step M act = some n) :
    exec (Locked.step M) m.locked (m.lockedActs M act) = some n.locked ∧ Owned M n := by
  cases act with
  | plain a =>
      obtain ⟨⟨hcode, hout⟩, ht⟩ := Option.ite_none_right_eq_some.mp hstep
      obtain ⟨s, hs, rfl⟩ := Option.map_eq_some_iff.mp ht
      refine ⟨?_, h.mem s m.mutex⟩
      have hnone : (M.agent a).all fun p => (m.locked.inside p).isNone := by
        cases hagent : M.agent a with
        | none => rfl
        | some p =>
            rw [hagent] at hout
            change ((m.stage p).section?).isNone = true
            cases hp : m.stage p with
            | inside b l r => simp [hp] at hout
            | _ => rfl
      have hcode' : (M.code m.locked.mem a).isNone = true := hcode
      have hs' : M.step m.locked.mem a = some s := hs
      simp only [lockedActs, exec, Locked.step, hcode', hnone, hs', and_self, if_true,
        Option.map_some, Option.bind_some]
      rfl
  | claim_mutex p a =>
      simp only [step] at hstep
      split at hstep
      next hstage =>
        obtain ⟨⟨hagent, -⟩, ht⟩ := Option.ite_none_right_eq_some.mp hstep
        cases ht
        refine ⟨congrArg some (locked_goto_eq ?_ rfl).symm, h.goto fun b hb => ?_⟩
        · rw [hstage]
          rfl
        · obtain ⟨i, heq⟩ | heq := hb
          · cases heq
            exact hagent
          · cases heq
      next => cases hstep
  | goes p =>
      have hgoes : m.goes M p = some n := hstep
      cases hstage : m.stage p with
      | outside =>
          unfold Mutexes.goes at hgoes
          rw [hstage] at hgoes
          cases hgoes
      | claiming a i => exact locked_claiming h hstage hgoes
      | yielding a =>
          unfold Mutexes.goes at hgoes
          rw [hstage] at hgoes
          cases hgoes
          have hacts : m.lockedActs M (.goes p) = [] := by simp [lockedActs, hstage]
          rw [hacts]
          refine ⟨congrArg some (locked_goto_eq ?_ rfl).symm, h.goto fun b hb => ?_⟩
          · rw [hstage]
            rfl
          · obtain ⟨i, heq⟩ | heq := hb
            · cases heq
              exact h.yielding p a hstage
            · cases heq
      | inside a l r =>
          obtain ⟨hlock, howned⟩ := locked_inside h hstage hgoes
          have hacts : m.lockedActs M (.goes p) = [.goes p] := by simp [lockedActs, hstage]
          rw [hacts]
          exact ⟨by simp [exec, hlock], howned⟩

/-- A process that claims a mutex takes no step meanwhile. -/
theorem agent_obs (hx : Locked.Exclusive M m.locked) {act : MutexAct α A}
    (hstep : m.step M act = some n) {a : α} (hp : n.Claims p a) :
    ∀ b ∈ m.obs M act, M.agent b ≠ some p := by
  intro b hb
  cases act with
  | plain c =>
      obtain ⟨⟨-, hout⟩, ht⟩ := Option.ite_none_right_eq_some.mp hstep
      obtain ⟨s, -, rfl⟩ := Option.map_eq_some_iff.mp ht
      have hbc : b = c := by
        cases hlocked : Locked.step M m.locked (.plain c) <;>
          simpa [obs, lockedActs, trace, Locked.obs, hlocked] using hb
      intro hagent
      rw [← hbc, hagent] at hout
      obtain ⟨i, hstage⟩ | hstage := hp
      · have hstage' : m.stage p = .claiming a i := hstage
        simp [hstage'] at hout
      · have hstage' : m.stage p = .yielding a := hstage
        simp [hstage'] at hout
  | claim_mutex q c => cases hb
  | goes q =>
      cases hstage : m.stage q with
      | outside => simp [obs, lockedActs, hstage, trace] at hb
      | yielding c => simp [obs, lockedActs, hstage, trace] at hb
      | claiming c i =>
          exfalso
          revert hb
          simp only [obs, lockedActs, hstage]
          split
          · split
            · simp [trace]
            · next l r _ _ =>
                cases hlocked : Locked.step M m.locked (.enter q c) <;>
                  simp [trace, Locked.obs, hlocked]
          · simp [trace]
      | inside c l r =>
          have hin : m.locked.inside q = some (c, l, r) := by
            change (m.stage q).section? = _
            rw [hstage]
            rfl
          have hbc : b = c := by
            cases r with
            | act f r =>
                cases hlocked : Locked.step M m.locked (.goes q) <;>
                  simpa [obs, lockedActs, hstage, trace, Locked.obs, hin, hlocked] using hb
            | _ =>
                exfalso
                cases hlocked : Locked.step M m.locked (.goes q) <;>
                  simp [obs, lockedActs, hstage, trace, Locked.obs, hin, hlocked] at hb
          rw [hbc, hx.agent q c l r hin]
          intro heq
          -- the process that goes on is in its section, or has left it
          have hqp : q = p := Option.some.inj heq
          obtain hout | ⟨r', hin'⟩ := stage_goes hstage hstep
          · rw [hqp] at hout
            obtain ⟨i, hclaim⟩ | hclaim := hp
            · cases hout.symm.trans hclaim
            · cases hout.symm.trans hclaim
          · rw [hqp] at hin'
            obtain ⟨i, hclaim⟩ | hclaim := hp
            · cases hin'.symm.trans hclaim
            · cases hin'.symm.trans hclaim

/-- The machine of whole sections follows, and the sections are those which it can
take next. -/
structure Follows (M : Sectioned S α A L P) (m : Mutexes S α A L P) (s : S) : Prop where
  owned : Owned M m
  locked : Locked.Follows M m.locked s
  claims : ∀ p a, m.Claims p a → (M.code s a).isSome

omit [DecidableEq A] in
theorem follows_start (hM : M.Lawful) (s : S) : Follows M (start s) s where
  owned := owned_start M s
  locked := Locked.follows_start hM s
  claims p a h := by
    obtain ⟨i, h⟩ | h := h
    · cases h
    · cases h

theorem Follows.step (hM : M.Lawful) {s : S} (h : Follows M m s) {act : MutexAct α A}
    (hstep : m.step M act = some n) :
    ∃ t, exec M.step s (m.obs M act) = some t ∧ Follows M n t := by
  obtain ⟨hlock, hn⟩ := locked_step h.owned hstep
  obtain ⟨t, ht, hfollows⟩ := Locked.simulates hM h.locked hlock
  refine ⟨t, ht, hn, hfollows, ?_⟩
  intro p a hp
  have hagent : M.agent a = some p := by
    obtain ⟨i, hp⟩ | hp := hp
    · exact hn.claiming p a i hp
    · exact hn.yielding p a hp
  rw [hM.code_exec hagent (agent_obs h.locked.exclusive hstep hp) ht]
  obtain hold | hnew := claims_step hstep hp
  · exact h.claims p a hold
  · rw [h.locked.code_eq hM]
    exact hnew

/-- **Sections under a mutex are atomic.** -/
theorem simulates (hM : M.Lawful) {s : S} (h : Follows M m s) {acts : List (MutexAct α A)}
    (hrun : exec (step M) m acts = some n) :
    ∃ t, exec M.step s (trace (step M) (obs M) m acts) = some t ∧ Follows M n t := by
  refine exec_simulates (R := Follows M) ?_ h hrun
  intro m s act n h hstep
  exact h.step hM hstep

/-- A process that claims a mutex or is in a section can take its next step, if the
sections can be taken at all. -/
theorem Follows.goes_isSome (hM : M.Lawful) {s : S} (h : Follows M m s)
    (hsteps : ∀ a, (M.code s a).isSome → (M.step s a).isSome) (hp : m.stage p ≠ .outside) :
    (m.goes M p).isSome := by
  unfold Mutexes.goes
  cases hstage : m.stage p with
  | outside => exact absurd hstage hp
  | claiming a i =>
      have hcode := h.claims p a (Or.inl ⟨i, hstage⟩)
      rw [h.locked.code_eq hM] at hcode
      have hmem : (M.code m.mem a).isSome := hcode
      simpa using hmem
  | yielding a => rfl
  | inside a l r =>
      cases r with
      | act f r =>
          have hin : m.locked.inside p = some (a, l, .act f r) := by
            change (m.stage p).section? = _
            rw [hstage]
            rfl
          obtain ⟨c, hcode, -⟩ | ⟨hquiet, -⟩ := h.locked.halfway p a l _ hin
          · have hstep := hsteps a (by rw [hcode]; rfl)
            have hmem : (f m.mem).isSome := h.locked.act_isSome hM hin hstep
            simpa using hmem
          · exact hquiet.elim
      | _ => rfl

end Mutexes

/-- **A mutex has one holder, and is claimed exactly as long as it has.** -/
theorem mutexes_exclusive {S α A L P : Type*} [DecidableEq L] [DecidableEq A]
    (M : Sectioned S α A L P) (s : S) (acts : List (MutexAct α A)) :
    Throughout (Mutexes.step M)
      (fun m => ∀ l, ((m.mutex l).claimed = true ↔ ∃ p a r, m.stage p = .inside a l r) ∧
        ∀ p q a b r c, m.stage p = .inside a l r → m.stage q = .inside b l c → p = q)
      (Mutexes.start s) acts := by
  refine throughout_of_along (I := fun m => Mutexes.Owned M m ∧ Locked.Exclusive M m.locked)
    ?_ ?_ (along_true _ _) ⟨Mutexes.owned_start M s, Locked.exclusive_start M s⟩
  · intro m act n hm _ hstep
    obtain ⟨hlock, hn⟩ := Mutexes.locked_step hm.1 hstep
    refine ⟨hn, ?_⟩
    exact Reachable.invariant (fun _ _ _ h hstep => Locked.Exclusive.step h hstep)
      ⟨_, hlock⟩ hm.2
  · intro m hm l
    -- who is in a section is there for the lock as well
    have hin : ∀ p a r, m.stage p = .inside a l r ↔ m.locked.inside p = some (a, l, r) := by
      intro p a r
      change _ ↔ (m.stage p).section? = _
      cases m.stage p <;> simp [MutexStage.section?]
    simp only [hin]
    refine ⟨⟨hm.2.held l, ?_⟩, fun p q a b r c => hm.2.alone p q a b l r c⟩
    rintro ⟨p, a, r, hp⟩
    exact hm.2.claimed p a l r hp

end Cxp
