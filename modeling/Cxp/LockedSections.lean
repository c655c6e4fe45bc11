import Cxp.RunInduction
import Mathlib.Logic.Function.Basic

/-!
# Sections under a lock are atomic

A machine whose agents take some of their steps as a *section*, statement by
statement and under a lock.  A lock protects a part of the state.  A section may
look at that part and change it as often as it likes, and once it acts on the rest
of the state, which nothing protects.

* `Sectioned` is the machine that takes a section in one step, with the code of its
  sections.
* `Locked` runs the sections statement by statement, in any order: while an agent
  is in one, others take their steps, and are in sections of their own under other
  locks.
* What `Locked` does is what the first machine does if it takes each section at the
  moment of its action on the rest (`Locked.simulates`).
-/

open Run

/-- What a section does.  `S` is the state, and `P` what the lock protects of it. -/
inductive Section (S P : Type*)
  /-- it is over, but for the release of the lock -/
  | done
  /-- it looks at what the lock protects -/
  | read (k : P → Section S P)
  /-- it changes what the lock protects -/
  | write (f : P → P) (rest : Section S P)
  /-- it acts on the rest of the state; `none` when it cannot -/
  | act (f : S → Option S) (rest : Section S P)

/-- A machine some of whose steps are sections: `code s a` is the lock and the
section of the step `a`.  `get` are the parts that the locks protect, and `replace`
puts other ones in their place. -/
structure Sectioned (S α A L P : Type*) where
  step : S → α → Option S
  /-- whose step it is; `none`: nobody's -/
  agent : α → Option A
  get : S → L → P
  replace : S → (L → P) → S
  code : S → α → Option (L × Section S P)

namespace Sectioned

variable {S α A L P : Type*} [DecidableEq L] (M : Sectioned S α A L P)

/-- Another part under one lock. -/
def put (s : S) (l : L) (v : P) : S := M.replace s (Function.update (M.get s) l v)

/-- All statements of a section at once. -/
def run (l : L) : Section S P → S → Option S
  | .done, s => some s
  | .read k, s => run l (k (M.get s l)) s
  | .write f rest, s => run l rest (M.put s l (f (M.get s l)))
  | .act f rest, s => (f s).bind (run l rest)

/-- A function on states that has nothing to do with what the locks protect. -/
def Apart (f : S → Option S) : Prop :=
  ∀ s v, f (M.replace s v) = (f s).map fun t => M.replace t v

/-- What the section makes of the part under its lock, from where it does not act
on the rest any more. -/
def effect : Section S P → P → P
  | .done, v => v
  | .read k, v => effect (k v) v
  | .write f rest, v => effect rest (f v)
  | .act _ rest, v => effect rest v

/-- The section does not act on the rest. -/
def Quiet : Section S P → Prop
  | .done => True
  | .read k => ∀ v, Quiet (k v)
  | .write _ rest => Quiet rest
  | .act _ _ => False

/-- The section acts on the rest once, whichever way it goes. -/
def Single : Section S P → Prop
  | .done => False
  | .read k => ∀ v, Single (k v)
  | .write _ rest => Single rest
  | .act f rest => M.Apart f ∧ Quiet rest

/-- What makes the code of the sections that of the steps. -/
structure Lawful : Prop where
  get_replace : ∀ s v, M.get (M.replace s v) = v
  replace_get : ∀ s, M.replace s (M.get s) = s
  replace_replace : ∀ s v w, M.replace (M.replace s v) w = M.replace s w
  /-- the step takes all statements of the section -/
  step_code : ∀ s a l c, M.code s a = some (l, c) → M.step s a = M.run l c s
  /-- any other step has nothing to do with what the locks protect -/
  step_plain : ∀ s a v, M.code s a = none →
    M.step (M.replace s v) a = (M.step s a).map fun t => M.replace t v
  code_replace : ∀ s a v, M.code (M.replace s v) a = M.code s a
  code_single : ∀ s a l c, M.code s a = some (l, c) → M.Single c
  /-- it is for the agent alone to say what it does next -/
  code_others : ∀ s t a b p, M.agent a = some p → M.agent b ≠ some p →
    M.step s b = some t → M.code t a = M.code s a

variable {M} {s t : S} {l : L} {v w : P} {c r : Section S P}

namespace Lawful

/-- What an agent does next is the same after steps of others. -/
theorem code_exec (hM : M.Lawful) {a : α} {p : A} (hp : M.agent a = some p) {bs : List α}
    (hbs : ∀ b ∈ bs, M.agent b ≠ some p) (hrun : exec M.step s bs = some t) :
    M.code t a = M.code s a := by
  induction bs generalizing s with
  | nil =>
      cases hrun
      rfl
  | cons b bs ih =>
      obtain ⟨u, hu, hrest⟩ := exec_cons hrun
      have hlater := ih (fun b hb => hbs b (List.mem_cons_of_mem _ hb)) hrest
      exact hlater.trans (hM.code_others s u a b p hp (hbs b List.mem_cons_self) hu)

theorem get_put_self (hM : M.Lawful) : M.get (M.put s l v) l = v := by
  rw [put, hM.get_replace, Function.update_self]

theorem put_put (hM : M.Lawful) : M.put (M.put s l v) l w = M.put s l w := by
  unfold put
  rw [hM.get_replace, Function.update_idem, hM.replace_replace]

theorem put_get (hM : M.Lawful) : M.put s l (M.get s l) = s := by
  rw [put, Function.update_eq_self, hM.replace_get]

/-- What has nothing to do with the locks leaves what they protect alone. -/
theorem get_of_apart (hM : M.Lawful) {f : S → Option S} (hf : M.Apart f) (hs : f s = some t) :
    M.get t = M.get s := by
  have happ := hf s (M.get s)
  rw [hM.replace_get, hs] at happ
  have ht : t = M.replace t (M.get s) := Option.some.inj happ
  rw [ht, hM.get_replace]

/-- From where it does not act on the rest any more, a section does what its effect
says, and nothing else. -/
theorem run_quiet (hM : M.Lawful) (hr : Quiet r) :
    M.run l r s = some (M.put s l (effect r (M.get s l))) := by
  induction r generalizing s with
  | done => rw [run, effect, hM.put_get]
  | read k ih => exact ih _ (hr _)
  | write f rest ih =>
      rw [run, ih hr, effect, hM.put_put, hM.get_put_self]
  | act f rest => exact hr.elim

end Lawful

/-- From the part `v` under the lock, `c` comes to the same as `r` from `w`. -/
def Comes (M : Sectioned S α A L P) (l : L) (c : Section S P) (v : P) (r : Section S P)
    (w : P) : Prop :=
  ∀ t, M.run l c (M.put t l v) = M.run l r (M.put t l w)

theorem Comes.read (hM : M.Lawful) {k : P → Section S P} (h : M.Comes l c v (.read k) w) :
    M.Comes l c v (k w) w := by
  intro t
  rw [h t, run, hM.get_put_self]

theorem Comes.write (hM : M.Lawful) {f : P → P} (h : M.Comes l c v (.write f r) w) :
    M.Comes l c v r (f w) := by
  intro t
  rw [h t, run, hM.get_put_self, hM.put_put]

end Sectioned

/-- The sections in progress: whose step of which section it is, and what is left of
it. -/
structure Locked (S α A L P : Type*) where
  mem : S
  claimed : L → Bool
  inside : A → Option (α × L × Section S P)

inductive LockedAct (α A : Type*)
  /-- a step that is not a section, by nobody or by an agent that is in no section -/
  | plain (a : α)
  /-- the agent claims the lock of its section -/
  | enter (p : A) (a : α)
  /-- it takes the next statement, or releases the lock behind the last one -/
  | goes (p : A)

namespace Locked

variable {S α A L P : Type*} [DecidableEq L] [DecidableEq A]

/-- Nobody is in a section. -/
def start (s : S) : Locked S α A L P := ⟨s, fun _ => false, fun _ => none⟩

/-- The agent has the rest of its section before it. -/
def left (m : Locked S α A L P) (p : A) (a : α) (l : L) (r : Section S P) : Locked S α A L P :=
  { m with inside := Function.update m.inside p (some (a, l, r)) }

def step (M : Sectioned S α A L P) (m : Locked S α A L P) :
    LockedAct α A → Option (Locked S α A L P)
  | .plain a =>
      if (M.code m.mem a).isNone ∧ (M.agent a).all fun p => (m.inside p).isNone then
        (M.step m.mem a).map fun s => { m with mem := s }
      else none
  | .enter p a =>
      if M.agent a = some p ∧ (m.inside p).isNone then
        (M.code m.mem a).bind fun (l, c) =>
          if m.claimed l then none
          else some ({ m with claimed := Function.update m.claimed l true }.left p a l c)
      else none
  | .goes p =>
      (m.inside p).bind fun (a, l, r) =>
        match r with
        | .done =>
            some { m with
              claimed := Function.update m.claimed l false
              inside := Function.update m.inside p none }
        | .read k => some (m.left p a l (k (M.get m.mem l)))
        | .write f r => some ({ m with mem := M.put m.mem l (f (M.get m.mem l)) }.left p a l r)
        | .act f r => (f m.mem).map fun s => { m with mem := s }.left p a l r

/-- The steps of the first machine: a section is taken when it acts on the rest. -/
def obs (m : Locked S α A L P) : LockedAct α A → List α
  | .plain a => [a]
  | .enter _ _ => []
  | .goes p =>
      match m.inside p with
      | some (a, _, .act _ _) => [a]
      | _ => []

/-- What a step takes, and where it goes. -/
inductive Steps (M : Sectioned S α A L P) (m : Locked S α A L P) :
    LockedAct α A → Locked S α A L P → Prop
  | plain {a : α} {s : S} (hcode : M.code m.mem a = none)
      (hout : ∀ p, M.agent a = some p → m.inside p = none) (hstep : M.step m.mem a = some s) :
      Steps M m (.plain a) { m with mem := s }
  | enter {p : A} {a : α} {l : L} {c : Section S P} (hagent : M.agent a = some p)
      (hout : m.inside p = none) (hcode : M.code m.mem a = some (l, c))
      (hfree : m.claimed l = false) :
      Steps M m (.enter p a)
        ({ m with claimed := Function.update m.claimed l true }.left p a l c)
  | done {p : A} {a : α} {l : L} (hin : m.inside p = some (a, l, .done)) :
      Steps M m (.goes p) { m with
        claimed := Function.update m.claimed l false
        inside := Function.update m.inside p none }
  | read {p : A} {a : α} {l : L} {k : P → Section S P}
      (hin : m.inside p = some (a, l, .read k)) :
      Steps M m (.goes p) (m.left p a l (k (M.get m.mem l)))
  | write {p : A} {a : α} {l : L} {f : P → P} {r : Section S P}
      (hin : m.inside p = some (a, l, .write f r)) :
      Steps M m (.goes p) ({ m with mem := M.put m.mem l (f (M.get m.mem l)) }.left p a l r)
  | act {p : A} {a : α} {l : L} {f : S → Option S} {r : Section S P} {s : S}
      (hin : m.inside p = some (a, l, .act f r)) (hf : f m.mem = some s) :
      Steps M m (.goes p) ({ m with mem := s }.left p a l r)

variable {M : Sectioned S α A L P} {m n : Locked S α A L P} {s : S}

/-- **Every step is one of these.** -/
theorem step_cases {act : LockedAct α A} (hstep : m.step M act = some n) : Steps M m act n := by
  cases act with
  | plain a =>
      obtain ⟨⟨hcode, hout⟩, ht⟩ := Option.ite_none_right_eq_some.mp hstep
      obtain ⟨s, hs, rfl⟩ := Option.map_eq_some_iff.mp ht
      refine .plain (Option.isNone_iff_eq_none.mp hcode) (fun p hp => ?_) hs
      rw [hp] at hout
      exact Option.isNone_iff_eq_none.mp hout
  | enter p a =>
      obtain ⟨⟨hagent, hout⟩, ht⟩ := Option.ite_none_right_eq_some.mp hstep
      obtain ⟨⟨l, c⟩, hcode, ht⟩ := Option.bind_eq_some_iff.mp ht
      obtain ⟨hfree, ht⟩ := Option.ite_none_left_eq_some.mp ht
      cases ht
      exact .enter hagent (Option.isNone_iff_eq_none.mp hout) hcode (eq_false_of_ne_true hfree)
  | goes p =>
      obtain ⟨⟨a, l, r⟩, hin, ht⟩ := Option.bind_eq_some_iff.mp hstep
      cases r with
      | done =>
          cases ht
          exact .done hin
      | read k =>
          cases ht
          exact .read hin
      | write f r =>
          cases ht
          exact .write hin
      | act f r =>
          obtain ⟨s, hs, rfl⟩ := Option.map_eq_some_iff.mp ht
          exact .act hin hs

omit [DecidableEq L] in
@[simp] theorem inside_left_self (m : Locked S α A L P) {p : A} {a : α} {l : L}
    {r : Section S P} : (m.left p a l r).inside p = some (a, l, r) :=
  Function.update_self ..

omit [DecidableEq L] in
theorem inside_left_of_ne (m : Locked S α A L P) {p q : A} {a : α} {l : L} {r : Section S P}
    (hq : q ≠ p) : (m.left p a l r).inside q = m.inside q :=
  Function.update_of_ne hq ..

section Exclusion

/-- A lock is claimed when somebody is in a section under it, and there is nobody
else. -/
structure Exclusive (M : Sectioned S α A L P) (m : Locked S α A L P) : Prop where
  claimed : ∀ p a l r, m.inside p = some (a, l, r) → m.claimed l = true
  held : ∀ l, m.claimed l = true → ∃ p a r, m.inside p = some (a, l, r)
  alone : ∀ p q a b l r c, m.inside p = some (a, l, r) → m.inside q = some (b, l, c) → p = q
  agent : ∀ p a l r, m.inside p = some (a, l, r) → M.agent a = some p

omit [DecidableEq L] [DecidableEq A] in
theorem exclusive_start (M : Sectioned S α A L P) (s : S) : Exclusive M (start s) where
  claimed p a l r h := by cases h
  held l h := by cases h
  alone p q a b l r c h := by cases h
  agent p a l r h := by cases h

omit [DecidableEq L] [DecidableEq A] in
/-- One agent is in a section under the lock afterwards or in none, and all others are
where they were, under other locks. -/
theorem Exclusive.next (h : Exclusive M m) {p : A} {l : L}
    (hclaimed : ∀ k, k ≠ l → n.claimed k = m.claimed k)
    (hinside : ∀ q, q ≠ p → n.inside q = m.inside q)
    (hold : ∀ a k r, m.inside p = some (a, k, r) → k = l)
    (hothers : ∀ q, q ≠ p → ∀ b d, m.inside q ≠ some (b, l, d))
    (hp : (n.claimed l = true ∧ ∃ a c, n.inside p = some (a, l, c) ∧ M.agent a = some p) ∨
      n.claimed l = false ∧ n.inside p = none) : Exclusive M n := by
  -- who is under the lock, and under another one
  have hlock : ∀ q b d, n.inside q = some (b, l, d) → q = p := by
    intro q b d hq
    by_contra hqp
    exact hothers q hqp b d ((hinside q hqp).symm.trans hq)
  have hother : ∀ q b k d, k ≠ l → n.inside q = some (b, k, d) → m.inside q = some (b, k, d) := by
    intro q b k d hk hq
    by_cases hqp : q = p
    · obtain ⟨-, a, c, hin, -⟩ | ⟨-, hout⟩ := hp
      · rw [hqp, hin] at hq
        cases hq
        exact absurd rfl hk
      · rw [hqp, hout] at hq
        cases hq
    · exact (hinside q hqp).symm.trans hq
  refine ⟨?_, ?_, ?_, ?_⟩
  · intro q b k d hq
    by_cases hk : k = l
    · obtain ⟨hl, -⟩ | ⟨-, hout⟩ := hp
      · rw [hk]
        exact hl
      · rw [hk] at hq
        rw [hlock q b d hq, hout] at hq
        cases hq
    · rw [hclaimed k hk]
      exact h.claimed q b k d (hother q b k d hk hq)
  · intro k hk
    by_cases hkl : k = l
    · rw [hkl] at hk ⊢
      obtain ⟨-, a, c, hin, -⟩ | ⟨hl, -⟩ := hp
      · exact ⟨p, a, c, hin⟩
      · rw [hl] at hk
        cases hk
    · rw [hclaimed k hkl] at hk
      obtain ⟨q, b, d, hq⟩ := h.held k hk
      have hqp : q ≠ p := by
        intro heq
        rw [heq] at hq
        exact hkl (hold b k d hq)
      exact ⟨q, b, d, (hinside q hqp).trans hq⟩
  · intro q q' b b' k d d' hq hq'
    by_cases hk : k = l
    · rw [hk] at hq hq'
      rw [hlock q b d hq, hlock q' b' d' hq']
    · exact h.alone q q' b b' k d d' (hother q b k d hk hq) (hother q' b' k d' hk hq')
  · intro q b k d hq
    by_cases hqp : q = p
    · obtain ⟨-, a, c, hin, hagent⟩ | ⟨-, hout⟩ := hp
      · rw [hqp, hin] at hq
        cases hq
        rw [hqp]
        exact hagent
      · rw [hqp, hout] at hq
        cases hq
    · exact h.agent q b k d ((hinside q hqp).symm.trans hq)

omit [DecidableEq L] [DecidableEq A] in
/-- Nobody else is under the lock of an agent that is in a section. -/
theorem Exclusive.others (h : Exclusive M m) {p : A} {a : α} {l : L} {r : Section S P}
    (hin : m.inside p = some (a, l, r)) (q : A) (hq : q ≠ p) (b : α) (d : Section S P) :
    m.inside q ≠ some (b, l, d) :=
  fun hother => hq (h.alone q p b a l d r hother hin)

omit [DecidableEq L] in
/-- The agent goes on in its section, and the state may change. -/
theorem Exclusive.left (h : Exclusive M m) {p : A} {a : α} {l : L} {r c : Section S P}
    (hin : m.inside p = some (a, l, r)) (s : S) :
    Exclusive M ({ m with mem := s }.left p a l c) := by
  refine h.next (p := p) (l := l) (fun _ _ => rfl) (fun q hq => inside_left_of_ne _ hq) ?_
    (h.others hin) (Or.inl ⟨h.claimed p a l r hin, a, c, inside_left_self _, h.agent p a l r hin⟩)
  intro b k d hb
  cases hin.symm.trans hb
  rfl

/-- An agent enters a section whose lock is free. -/
theorem Exclusive.enter (h : Exclusive M m) {p : A} {a : α} {l : L} {c : Section S P}
    (hagent : M.agent a = some p) (hout : m.inside p = none) (hfree : m.claimed l = false) :
    Exclusive M ({ m with claimed := Function.update m.claimed l true }.left p a l c) := by
  refine h.next (p := p) (l := l) (fun k hk => Function.update_of_ne hk ..)
    (fun q hq => inside_left_of_ne _ hq) ?_ ?_
    (Or.inl ⟨Function.update_self .., a, c, inside_left_self _, hagent⟩)
  · intro b k d hb
    cases hout.symm.trans hb
  · intro q _ b d hq
    cases hfree.symm.trans (h.claimed q b l d hq)

/-- An agent leaves its section. -/
theorem Exclusive.leave (h : Exclusive M m) {p : A} {a : α} {l : L} {r : Section S P}
    (hin : m.inside p = some (a, l, r)) :
    Exclusive M { m with
      claimed := Function.update m.claimed l false
      inside := Function.update m.inside p none } := by
  refine h.next (p := p) (l := l) (fun k hk => Function.update_of_ne hk ..)
    (fun q hq => Function.update_of_ne hq ..) ?_ (h.others hin)
    (Or.inr ⟨Function.update_self .., Function.update_self ..⟩)
  intro b k d hb
  cases hin.symm.trans hb
  rfl

/-- **Every step keeps the sections apart.** -/
theorem Exclusive.step (h : Exclusive M m) {act : LockedAct α A}
    (hstep : m.step M act = some n) : Exclusive M n := by
  cases step_cases hstep with
  | plain => exact ⟨h.claimed, h.held, h.alone, h.agent⟩
  | enter hagent hout hcode hfree => exact h.enter hagent hout hfree
  | done hin => exact h.leave hin
  | read hin => exact h.left hin m.mem
  | write hin => exact h.left hin _
  | act hin => exact h.left hin _

end Exclusion

section Simulation

open Sectioned

/-- The section `r` in progress is not taken yet by the first machine, or it has been
and only what the lock protects is still to be changed. -/
def Halfway (M : Sectioned S α A L P) (m : Locked S α A L P) (s : S) (a : α) (l : L)
    (r : Section S P) : Prop :=
  (∃ c, M.code s a = some (l, c) ∧ M.Single r ∧ M.Comes l c (M.get s l) r (M.get m.mem l)) ∨
    Quiet r ∧ M.get s l = effect r (M.get m.mem l)

/-- The state of the first machine: it agrees with the memory but for what is
protected by the lock of a section in progress. -/
structure Follows (M : Sectioned S α A L P) (m : Locked S α A L P) (s : S) : Prop where
  exclusive : Exclusive M m
  rest : M.replace m.mem (M.get s) = s
  free : ∀ l, m.claimed l = false → M.get s l = M.get m.mem l
  halfway : ∀ p a l r, m.inside p = some (a, l, r) → Halfway M m s a l r

omit [DecidableEq A] in
theorem follows_start (hM : M.Lawful) (s : S) : Follows M (start s) s where
  exclusive := exclusive_start M s
  rest := hM.replace_get s
  free _ _ := rfl
  halfway p a l r h := by cases h

omit [DecidableEq A] in
/-- While nobody is in a section, the memory is what the first machine has. -/
theorem Follows.eq (hM : M.Lawful) (h : Follows M m s) (hfree : ∀ l, m.claimed l = false) :
    m.mem = s := by
  have hget : M.get s = M.get m.mem := funext fun l => h.free l (hfree l)
  have hrest := h.rest
  rw [hget, hM.replace_get] at hrest
  exact hrest

omit [DecidableEq A] in
/-- What is to be done is the same in both machines. -/
theorem Follows.code_eq (hM : M.Lawful) (h : Follows M m s) (a : α) :
    M.code s a = M.code m.mem a := by
  have hcode := hM.code_replace m.mem a (M.get s)
  rw [h.rest] at hcode
  exact hcode

omit [DecidableEq A] in
/-- A section in progress does not notice that the first machine takes a step of
another agent elsewhere. -/
theorem Halfway.mono (hM : M.Lawful) {t : S} {b : α} {p : A} {a : α} {l : L}
    {r : Section S P} (h : Halfway M m s a l r) (hagent : M.agent a = some p)
    (hother : M.agent b ≠ some p) (hstep : M.step s b = some t)
    (hs : M.get t l = M.get s l) (hm : M.get n.mem l = M.get m.mem l) :
    Halfway M n t a l r := by
  obtain ⟨c, hcode, hsingle, hcomes⟩ | ⟨hquiet, heff⟩ := h
  · refine Or.inl ⟨c, (hM.code_others s t a b p hagent hother hstep).trans hcode, hsingle, ?_⟩
    rw [hs, hm]
    exact hcomes
  · refine Or.inr ⟨hquiet, ?_⟩
    rw [hs, hm]
    exact heff

omit [DecidableEq A] in
/-- A step that is not a section: the first machine takes it as well. -/
theorem Follows.plain (hM : M.Lawful) (h : Follows M m s) {a : α} {t : S}
    (hcode : M.code m.mem a = none) (hout : ∀ p, M.agent a = some p → m.inside p = none)
    (hstep : M.step m.mem a = some t) :
    ∃ t', M.step s a = some t' ∧ Follows M { m with mem := t } t' := by
  have happly : ∀ v, M.step (M.replace m.mem v) a = some (M.replace t v) := by
    intro v
    rw [hM.step_plain _ _ _ hcode, hstep]
    rfl
  have hs : M.step s a = some (M.replace t (M.get s)) := by
    have hgo := happly (M.get s)
    rw [h.rest] at hgo
    exact hgo
  -- it leaves alone what the locks protect
  have hmem : M.get t = M.get m.mem := by
    have hgo := happly (M.get m.mem)
    rw [hM.replace_get, hstep] at hgo
    rw [Option.some.inj hgo, hM.get_replace]
  have hget : M.get (M.replace t (M.get s)) = M.get s := hM.get_replace _ _
  refine ⟨_, hs, ⟨h.exclusive.claimed, h.exclusive.held, h.exclusive.alone,
    h.exclusive.agent⟩, ?_, ?_, ?_⟩
  · change M.replace t (M.get (M.replace t (M.get s))) = M.replace t (M.get s)
    rw [hget]
  · intro l hl
    rw [hget, h.free l hl]
    exact (congrFun hmem l).symm
  · intro p b l r hin
    have hne : M.agent a ≠ some p := by
      intro hp
      cases (hout p hp).symm.trans hin
    exact (h.halfway p b l r hin).mono hM (h.exclusive.agent p b l r hin) hne hs
      (congrFun hget l) (congrFun hmem l)

/-- An agent claims a lock: nothing happens for the first machine. -/
theorem Follows.enter (hM : M.Lawful) (h : Follows M m s) {p : A} {a : α} {l : L}
    {c : Section S P} (hagent : M.agent a = some p) (hout : m.inside p = none)
    (hcode : M.code m.mem a = some (l, c)) (hfree : m.claimed l = false) :
    Follows M ({ m with claimed := Function.update m.claimed l true }.left p a l c) s where
  exclusive := h.exclusive.enter hagent hout hfree
  rest := h.rest
  free k hk := by
    have hkl : k ≠ l := by
      intro heq
      rw [heq] at hk
      have hl : Function.update m.claimed l true l = true := Function.update_self ..
      cases hk.symm.trans hl
    exact h.free k ((Function.update_of_ne hkl ..).symm.trans hk)
  halfway q b k d hq := by
    by_cases hqp : q = p
    · rw [hqp, inside_left_self] at hq
      cases hq
      refine Or.inl ⟨c, (h.code_eq hM a).trans hcode, hM.code_single _ _ _ _ hcode, ?_⟩
      intro t
      rw [h.free l hfree]
      rfl
    · rw [inside_left_of_ne _ hqp] at hq
      exact h.halfway q b k d hq

/-- An agent releases its lock. -/
theorem Follows.leave (h : Follows M m s) {p : A} {a : α} {l : L}
    (hin : m.inside p = some (a, l, .done)) :
    Follows M { m with
      claimed := Function.update m.claimed l false
      inside := Function.update m.inside p none } s where
  exclusive := h.exclusive.leave hin
  rest := h.rest
  free k hk := by
    by_cases hkl : k = l
    · obtain ⟨c, -, hsingle, -⟩ | ⟨-, heff⟩ := h.halfway p a l .done hin
      · exact hsingle.elim
      · rw [hkl]
        exact heff
    · exact h.free k ((Function.update_of_ne hkl ..).symm.trans hk)
  halfway q b k d hq := by
    have hqp : q ≠ p := by
      intro heq
      rw [heq] at hq
      simp only [Function.update_self] at hq
      cases hq
    exact h.halfway q b k d ((Function.update_of_ne hqp ..).symm.trans hq)

/-- The agent goes on in its section while the first machine does not move: nobody
else notices. -/
theorem Follows.stutter (h : Follows M m s) {t : S} {p : A} {a : α} {l : L}
    {r c : Section S P} (hin : m.inside p = some (a, l, r))
    (hrest : M.replace t (M.get s) = s) (hget : ∀ k, k ≠ l → M.get t k = M.get m.mem k)
    (hnext : Halfway M ({ m with mem := t }.left p a l c) s a l c) :
    Follows M ({ m with mem := t }.left p a l c) s where
  exclusive := h.exclusive.left hin t
  rest := hrest
  free k hk := by
    have hkl : k ≠ l := by
      intro heq
      rw [heq] at hk
      cases hk.symm.trans (h.exclusive.claimed p a l r hin)
    exact (h.free k hk).trans (hget k hkl).symm
  halfway q b k d hq := by
    by_cases hqp : q = p
    · rw [hqp, inside_left_self] at hq
      cases hq
      exact hnext
    · rw [inside_left_of_ne _ hqp] at hq
      have hkl : k ≠ l := by
        intro heq
        rw [heq] at hq
        exact h.exclusive.others hin q hqp b d hq
      have hhalf := h.halfway q b k d hq
      unfold Halfway at hhalf ⊢
      rw [Locked.left, hget k hkl]
      exact hhalf

theorem Follows.read (hM : M.Lawful) (h : Follows M m s) {p : A} {a : α} {l : L}
    {k : P → Section S P} (hin : m.inside p = some (a, l, .read k)) :
    Follows M (m.left p a l (k (M.get m.mem l))) s := by
  refine h.stutter (t := m.mem) hin h.rest (fun _ _ => rfl) ?_
  obtain ⟨c, hcode, hsingle, hcomes⟩ | ⟨hquiet, heff⟩ := h.halfway p a l _ hin
  · exact Or.inl ⟨c, hcode, hsingle _, hcomes.read hM⟩
  · exact Or.inr ⟨hquiet _, heff⟩

theorem Follows.write (hM : M.Lawful) (h : Follows M m s) {p : A} {a : α} {l : L}
    {f : P → P} {r : Section S P} (hin : m.inside p = some (a, l, .write f r)) :
    Follows M ({ m with mem := M.put m.mem l (f (M.get m.mem l)) }.left p a l r) s := by
  have hself : M.get (M.put m.mem l (f (M.get m.mem l))) l = f (M.get m.mem l) :=
    hM.get_put_self
  refine h.stutter hin ?_ ?_ ?_
  · rw [put, hM.replace_replace]
    exact h.rest
  · intro k hk
    rw [put, hM.get_replace, Function.update_of_ne hk]
  · obtain ⟨c, hcode, hsingle, hcomes⟩ | ⟨hquiet, heff⟩ := h.halfway p a l _ hin
    · refine Or.inl ⟨c, hcode, hsingle, ?_⟩
      rw [Locked.left, hself]
      exact hcomes.write hM
    · refine Or.inr ⟨hquiet, ?_⟩
      rw [Locked.left, hself]
      exact heff

omit [DecidableEq A] in
/-- The state of the first machine, but for the part under the lock. -/
theorem Follows.put_eq (hM : M.Lawful) (h : Follows M m s) {l : L} {v : P} :
    M.put s l v = M.replace m.mem (Function.update (M.get s) l v) := by
  have hrest : M.put (M.replace m.mem (M.get s)) l v =
      M.replace m.mem (Function.update (M.get s) l v) := by
    rw [put, hM.get_replace, hM.replace_replace]
  rw [h.rest] at hrest
  exact hrest

/-- The action on the rest: here the first machine takes the whole section. -/
theorem Follows.act (hM : M.Lawful) (h : Follows M m s) {p : A} {a : α} {l : L}
    {f : S → Option S} {r : Section S P} {t : S} (hin : m.inside p = some (a, l, .act f r))
    (hf : f m.mem = some t) :
    ∃ t', M.step s a = some t' ∧ Follows M ({ m with mem := t }.left p a l r) t' := by
  obtain ⟨c, hcode, ⟨happ, hquiet⟩, hcomes⟩ | ⟨hquiet, -⟩ := h.halfway p a l _ hin
  · have hmem : M.get t = M.get m.mem := hM.get_of_apart happ hf
    -- the first machine has the other parts, and ends with what the section leaves
    have hstep : M.step s a =
        some (M.replace t (Function.update (M.get s) l (effect r (M.get m.mem l)))) := by
      have hcs := hcomes s
      rw [hM.put_get, run, h.put_eq hM, happ, hf, Option.map_some, Option.bind_some,
        hM.run_quiet hquiet, put, hM.get_replace, hM.replace_replace, Function.update_idem,
        Function.update_self] at hcs
      rw [hM.step_code s a l c hcode, hcs]
    have hget : M.get (M.replace t (Function.update (M.get s) l (effect r (M.get m.mem l)))) =
        Function.update (M.get s) l (effect r (M.get m.mem l)) := hM.get_replace _ _
    refine ⟨_, hstep, h.exclusive.left hin t, ?_, ?_, ?_⟩
    · rw [hget]
      rfl
    · intro k hk
      have hkl : k ≠ l := by
        intro heq
        rw [heq] at hk
        cases hk.symm.trans (h.exclusive.claimed p a l _ hin)
      rw [hget, Function.update_of_ne hkl, h.free k hk]
      exact (congrFun hmem k).symm
    · intro q b k d hq
      by_cases hqp : q = p
      · rw [hqp, inside_left_self] at hq
        cases hq
        refine Or.inr ⟨hquiet, ?_⟩
        rw [hget, Function.update_self]
        exact congrArg _ (congrFun hmem l).symm
      · rw [inside_left_of_ne _ hqp] at hq
        have hkl : k ≠ l := by
          intro heq
          rw [heq] at hq
          exact h.exclusive.others hin q hqp b d hq
        have hne : M.agent a ≠ some q := by
          rw [h.exclusive.agent p a l _ hin]
          exact fun heq => hqp (Option.some.inj heq).symm
        refine (h.halfway q b k d hq).mono hM (h.exclusive.agent q b k d hq) hne hstep ?_
          (congrFun hmem k)
        rw [hget, Function.update_of_ne hkl]
  · exact hquiet.elim

omit [DecidableEq A] in
/-- An action on the rest can be taken if the first machine can take the section. -/
theorem Follows.act_isSome (hM : M.Lawful) (h : Follows M m s) {p : A} {a : α} {l : L}
    {f : S → Option S} {r : Section S P} (hin : m.inside p = some (a, l, .act f r))
    (hstep : (M.step s a).isSome) : (f m.mem).isSome := by
  obtain ⟨c, hcode, ⟨happ, -⟩, hcomes⟩ | ⟨hquiet, -⟩ := h.halfway p a l _ hin
  · have hcs := hcomes s
    rw [hM.put_get, ← hM.step_code s a l c hcode, h.put_eq hM, run, happ] at hcs
    cases hf : f m.mem with
    | none =>
        rw [hf] at hcs
        rw [hcs] at hstep
        cases hstep
    | some t => rfl
  · exact hquiet.elim

/-- **What one step does, the first machine does, or nothing.** -/
theorem Follows.step (hM : M.Lawful) (h : Follows M m s) {a : LockedAct α A}
    (hstep : m.step M a = some n) :
    ∃ t, exec M.step s (m.obs a) = some t ∧ Follows M n t := by
  cases step_cases hstep with
  | plain hcode hout hmem =>
      obtain ⟨t, ht, hfollows⟩ := h.plain hM hcode hout hmem
      exact ⟨t, by simp [obs, exec, ht], hfollows⟩
  | enter hagent hout hcode hfree => exact ⟨s, rfl, h.enter hM hagent hout hcode hfree⟩
  | done hin => exact ⟨s, by simp [obs, hin, exec], h.leave hin⟩
  | read hin => exact ⟨s, by simp [obs, hin, exec], h.read hM hin⟩
  | write hin => exact ⟨s, by simp [obs, hin, exec], h.write hM hin⟩
  | act hin hf =>
      obtain ⟨t, ht, hfollows⟩ := h.act hM hin hf
      exact ⟨t, by simp [obs, hin, exec, ht], hfollows⟩

/-- **Sections are atomic.**  Each run of the statements is a run of the first machine,
each section being taken when it acts on the rest. -/
theorem simulates (hM : M.Lawful) (h : Follows M m s) {acts : List (LockedAct α A)}
    (hrun : exec (step M) m acts = some n) :
    ∃ t, exec M.step s (trace (step M) obs m acts) = some t ∧ Follows M n t := by
  refine exec_simulates (R := Follows M) ?_ h hrun
  intro m s a n h hstep
  exact h.step hM hstep

end Simulation

end Locked
