import Cxp.SchedulerPopulation

/-!
# Every step is a turn

The cases of `step`: what a process does to itself, what it does about others,
the par constructs, and the handlers.
-/

namespace Cxp

open Queues

namespace Sched

variable {N U : Nat} {sys : Procs N U} {s t : Sched N U} {act : SchedAct N U} {π : Fin U}
  {p q child : Fin N}

section Processes

theorem born_of_waits (h : (s.live q).code.waits) : s.Born q := by
  intro hcode
  rw [hcode] at h
  cases h

/-- A process that may act goes on in its code. -/
theorem Populated.acts (h : Populated sys s) {test : Code → Bool} {e : Code} {o : Op N}
    (hmay : s.May sys p test) (hsite : act.site sys = sys.pun p) (hq : t.queues = s.queues)
    (hcur : t.current = s.current)
    (hlive : t.live = Function.update s.live p { s.live p with code := e, op := o })
    (hstack : t.stackptr = s.stackptr) (hcode : e ≠ .unborn)
    (hacc : ∀ kind nc left, e = .par kind nc left →
      kind.accepts (sys.pri p) nc ∧ left ≤ nc)
    (hop : ∀ q, o = .freeWaiting q ∨ o = .schedule q → s.Born q)
    (halt : ∀ x, t.alt_state x ≠ .none → s.Born x) (hpar : t.parent = s.parent) :
    Stepped sys act s t :=
  h.goes hsite hmay.1 hmay.2.2.2 hq hcur hlive hstack hcode hacc hop halt hpar

/-- `alt_state` is set for a process that exists. -/
theorem Populated.alting_update (h : Populated sys s) {st : AltState} (hq : s.Born q)
    (x : Fin N) (hx : Function.update s.alt_state q st x ≠ .none) : s.Born x := by
  by_cases hxq : x = q
  · exact hxq ▸ hq
  · rw [Function.update_of_ne hxq] at hx
    exact h.alting x hx

theorem Populated.wake (h : Populated sys s) (hmay : s.May sys p (· = .own))
    (hq : (s.live q).code.waits) (hsite : act.site sys = sys.pun p) :
    Stepped sys act s (s.wake p q) := by
  have hb : s.Born p := h.born_current hmay.1.1
  unfold Sched.wake
  split
  · refine h.acts hmay hsite rfl rfl (e := (s.live p).code) (o := .schedule q) rfl rfl hb
      (h.live p).accepted (fun x hx => ?_) h.alting rfl
    rcases hx with hx | hx
    · cases hx
    · cases hx
      exact born_of_waits hq
  · refine h.acts hmay hsite rfl rfl (e := (s.live p).code) (o := (s.live p).op) ?_ rfl hb
      (h.live p).accepted (fun x hx => ?_) h.alting rfl
    · exact (Function.update_eq_self p s.live).symm
    · exact (h.live p).names x (hx.imp_right Or.inl)

theorem Populated.free (h : Populated sys s) (hmay : s.May sys p (· = .own))
    (hsite : act.site sys = sys.pun p) : Stepped sys act s (s.free p q) := by
  have hb : s.Born p := h.born_current hmay.1.1
  have hstay : ∀ t : Sched N U, t.queues = s.queues → t.current = s.current →
      t.live = s.live → t.stackptr = s.stackptr →
      (∀ x, t.alt_state x ≠ .none → s.Born x) → t.parent = s.parent → Stepped sys act s t := by
    intro t htq htc htl hts hta htp
    refine h.acts hmay hsite htq htc (e := (s.live p).code) (o := (s.live p).op) ?_ hts hb
      (h.live p).accepted (fun x hx => ?_) hta htp
    · rw [htl]
      exact (Function.update_eq_self p s.live).symm
    · exact (h.live p).names x (hx.imp_right Or.inl)
  unfold Sched.free
  split
  next halt =>
    have hq : s.Born q := h.alting q (by simp [halt])
    exact hstay _ rfl rfl rfl rfl (h.alting_update hq) rfl
  next halt =>
    refine h.acts hmay hsite rfl rfl (e := (s.live p).code) (o := .freeWaiting q) rfl rfl hb
      (h.live p).accepted (fun x hx => ?_) h.alting rfl
    rcases hx with hx | hx
    · cases hx
      exact h.alting q (by simp [halt])
    · cases hx
  next => exact hstay s rfl rfl rfl rfl h.alting rfl

theorem Populated.yield (h : Populated sys s) {test : Code → Bool} (hmay : s.May sys p test)
    (hstep : s.yield sys p = some t) : Stepped sys (.yield p) s t := by
  have hb : s.Born p := h.born_current hmay.1.1
  obtain ⟨c, hcur, hm, hturn⟩ := yield_turn (B := s.Born) (R := s.Readying (sys.pun p))
    (Q := t.Readying (sys.pun p)) (Y := SchedAct.Yields (.yield p)) h.chained hmay.1.1
    ⟨p, rfl⟩ hstep
  rcases hm with hm | hm
  · exact h.hands rfl rfl rfl (fun _ _ => rfl) (fun x hx => Or.inl hx) hcur hm hturn
  · have hdoing : Stepped sys (.yield p) s (s.doing p .enable) := by
      refine h.acts hmay rfl rfl rfl (e := (s.live p).code) (o := .enable) rfl rfl hb
        (h.live p).accepted (fun x hx => ?_) h.alting rfl
      rcases hx with hx | hx <;> cases hx
    refine hdoing.hands rfl rfl rfl hcur hm (hturn.mono fun x hx => ?_)
    exact (born_sets (c := { s.live p with op := .enable }) rfl hb x).mpr (Or.inl hx)

theorem Populated.sync (h : Populated sys s) (hmay : s.May sys p (· = .own)) {parent : Fin N}
    (hpar : s.parent p = some parent) :
    Stepped sys (.sync p) s (s.par_barr_sync p parent) := by
  have hpb : s.Born parent := h.parent p parent hpar
  unfold par_barr_sync
  dsimp only
  split
  · refine h.acts hmay rfl rfl rfl (e := .ending) (o := .schedule parent) ?_ rfl
      (by simp) (by simp) (fun x hx => ?_) h.alting rfl
    · simp [Sched.goto, Sched.doing]
    · rcases hx with hx | hx
      · cases hx
      · cases hx
        exact hpb
  · refine h.acts hmay rfl rfl rfl (e := .ending) (o := (s.live p).op) rfl rfl (by simp)
      (by simp) (fun x hx => ?_) h.alting rfl
    exact (h.live p).names x (hx.imp_right Or.inl)

/-- A process that has something to finish is not the idle one. -/
theorem Populated.runs (h : Populated sys s) {e : Code} {o : Op N} (hrun : s.Runs sys p)
    (hne : ¬((s.live p).code = .own ∧ (s.live p).op = .none))
    (hq : t.queues = s.queues) (hcur : t.current = s.current)
    (hlive : t.live = Function.update s.live p { s.live p with code := e, op := o })
    (hstack : t.stackptr = s.stackptr) (hcode : e ≠ .unborn)
    (hacc : ∀ kind nc left, e = .par kind nc left →
      kind.accepts (sys.pri p) nc ∧ left ≤ nc)
    (hop : ∀ q, o = .freeWaiting q ∨ o = .schedule q → s.Born q)
    (halt : ∀ x, t.alt_state x ≠ .none → s.Born x) (hpar : t.parent = s.parent) :
    Stepped sys (.run p) s t :=
  h.goes rfl hrun (h.not_idler hne) hq hcur hlive hstack hcode hacc hop halt hpar

/-- It goes on in its code, with nothing to do about anybody. -/
theorem Populated.runs_to (h : Populated sys s) {e : Code} (hrun : s.Runs sys p)
    (hop : (s.live p).op = .none) (hown : (s.live p).code ≠ .own)
    (hq : t.queues = s.queues) (hcur : t.current = s.current)
    (hlive : t.live = Function.update s.live p { s.live p with code := e })
    (hstack : t.stackptr = s.stackptr) (hcode : e ≠ .unborn)
    (hacc : ∀ kind nc left, e ≠ .par kind nc left)
    (halt : ∀ x, t.alt_state x ≠ .none → s.Born x) (hpar : t.parent = s.parent) :
    Stepped sys (.run p) s t := by
  refine h.runs hrun (fun hx => hown hx.1) hq hcur (o := (s.live p).op) hlive hstack hcode
    (fun kind nc left hx => absurd hx (hacc kind nc left)) (fun q hx => ?_) halt hpar
  rw [hop] at hx
  rcases hx with hx | hx <;> cases hx

theorem Populated.run (h : Populated sys s) (hrun : s.Runs sys p)
    (hstep : s.run sys p = some t) : Stepped sys (.run p) s t := by
  have hb : s.Born p := h.born_current hrun.1
  cases run_cases hstep with
  | @frees q hop halt =>
      have hq : s.Born q := (h.live p).names q (Or.inl hop)
      have hne : ¬((s.live p).code = .own ∧ (s.live p).op = .none) := by simp [hop]
      refine h.runs hrun hne rfl rfl (e := (s.live p).code) (o := .schedule q) rfl rfl hb
        (h.live p).accepted (fun x hx => ?_) (h.alting_update hq) rfl
      obtain hx | hx := hx
      · cases hx
      · cases hx
        exact hq
  | freed hop halt =>
      refine h.runs hrun (by simp [hop]) rfl rfl (e := (s.live p).code) (o := .none) rfl rfl hb
        (h.live p).accepted (fun x hx => ?_) h.alting rfl
      obtain hx | hx := hx <;> cases hx
  | @schedule q t hop hschedule =>
      have hq : s.Born q := (h.live p).names q (Or.inr (Or.inl hop))
      have hdoing : Stepped sys (.run p) s (s.doing p .enable) := by
        refine h.runs hrun (by simp [hop]) rfl rfl (e := (s.live p).code) (o := .enable)
          rfl rfl hb (h.live p).accepted (fun x hx => ?_) h.alting rfl
        obtain hx | hx := hx <;> cases hx
      have hq' : (s.doing p .enable).Born q :=
        (born_sets (c := { s.live p with op := .enable }) rfl hb q).mpr (Or.inl hq)
      obtain ⟨c, hcur, hm, hturn⟩ := schedule0_turn hq' (not_readying hrun) hschedule
      exact hdoing.hands rfl rfl rfl hcur hm hturn
  | enable hop =>
      refine h.runs hrun (by simp [hop]) rfl rfl (e := (s.live p).code) (o := .none)
        rfl rfl hb (h.live p).accepted (fun x hx => ?_) h.alting rfl
      obtain hx | hx := hx <;> cases hx
  | altWaits hop hcode halt =>
      exact h.runs_to hrun hop (by simp [hcode]) rfl rfl rfl rfl (by simp) (by simp)
        (h.alting_update hb) rfl
  | disabling hop hcode =>
      exact h.runs_to hrun hop (by simp [hcode]) rfl rfl rfl rfl (by simp) (by simp)
        (h.alting_update hb) rfl
  | waits hop hcode _ | woken hop hcode _ | altReady hop hcode _ | parWaits hop hcode _
  | parWoken hop hcode _ =>
      exact h.runs_to hrun hop (by simp [hcode]) rfl rfl rfl rfl (by simp) (by simp)
        h.alting rfl
  | @relinquish w t hop hcode hrelinquish =>
      have hne : ¬((s.live p).code = .own ∧ (s.live p).op = .none) := by simp [hcode]
      have hgoto : Stepped sys (.run p) s (s.goto p (.switched w)) :=
        h.runs_to hrun hop (by simp [hcode]) rfl rfl rfl rfl (by simp) (by simp) h.alting rfl
      obtain ⟨c, hcur, hm, hturn⟩ := relinquish_turn (B := (s.goto p (.switched w)).Born)
        h.chained hrun.1 (h.not_idler hne) hrelinquish
      exact hgoto.hands rfl rfl rfl hcur hm hturn
  | @switched w hop hcode =>
      refine h.runs_to hrun hop (by simp [hcode]) rfl rfl rfl rfl ?_ ?_ h.alting rfl
      · cases w <;> simp [Wait.after]
      · cases w <;> simp [Wait.after]
  | ending hop hcode =>
      have hidle : sys.idler (sys.pun p) ≠ p := h.not_idler (by simp [hcode])
      have hfine : Context.Fine sys s.Born p ⟨.finishing, .none, none⟩ :=
        ⟨by simp [Context.Names], by simp, by simp, fun hx => absurd hx hidle⟩
      exact h.steps hrun.1 rfl rfl rfl rfl (by simp) (by simp) hfine hfine h.alting rfl
        fun hR => absurd hR (not_readying hrun)
  | finishing hop hcode hfinish =>
      have hidle : sys.idler (sys.pun p) ≠ p := h.not_idler (by simp [hcode])
      have hfine : Context.Fine sys s.Born p ⟨.dead, .none, none⟩ :=
        ⟨by simp [Context.Names], by simp, by simp, fun hx => absurd hx hidle⟩
      have hvanish : Stepped sys (.run p) s (s.vanish p) :=
        h.steps hrun.1 rfl rfl rfl rfl (by simp) (by simp) hfine hfine h.alting rfl
          fun hR => absurd hR (not_readying hrun)
      obtain ⟨c, hcur, hm, hturn⟩ := finish_termination_turn (B := (s.vanish p).Born)
        h.chained hrun.1 hidle hfinish
      exact hvanish.hands rfl rfl rfl hcur hm hturn

/-- A construct's next child is built and readied. -/
theorem Populated.build (h : Populated sys s) {kind : ParKind} {nc left : Nat}
    (hcode : (s.live p).code = .par kind nc (left + 1)) (hmay : s.May sys p fun _ => true)
    (hunborn : (s.live child).code = .unborn)
    (hpri : sys.pri child = kind.child_pri (sys.pri p) (nc - (left + 1)))
    (hstep : ((s.make_process p child).goto p (.par kind nc left)).enqueue sys p child = some t) :
    Stepped sys (.build p child) s t := by
  have hb : s.Born p := h.born_current hmay.1.1
  have hchild : ¬s.Born child := fun hx => hx hunborn
  have hne : p ≠ child := fun hx => hchild (hx ▸ hb)
  obtain ⟨hacc, hleft⟩ := (h.live p).accepted kind nc (left + 1) hcode
  have hpfits : Fits (sys.pri p) := (h.fits p hb).resolve_left hmay.2.2.2
  have hi : nc - (left + 1) < nc := by omega
  have hfits : Fits (sys.pri child) := hpri ▸ hpfits.child hacc hi
  have hle : pri_le (sys.pri child) (sys.pri p) = true := by
    by_contra hx
    rw [Bool.not_eq_true, ← pri_gt_iff_not_le, hpri, hpfits.child_not_gt hacc hi] at hx
    cases hx
  -- the child is built
  have hnew : Context.Fine sys s.Born child ⟨.own, .none, none⟩ :=
    ⟨by simp [Context.Names], by simp, by simp, fun _ => ⟨rfl, rfl⟩⟩
  have h₁ : Populated sys (s.make_process p child) := by
    refine h.sets rfl rfl rfl rfl (by simp) (by simp) hnew hnew (Or.inr hfits)
      (fun x hx => ?_) fun x q hx => ?_
    · by_cases hxc : x = child
      · exact Or.inr hxc
      · exact Or.inl (h.alting x (by simpa [make_process, hxc] using hx))
    · by_cases hxc : x = child
      · subst hxc
        have hpq : p = q := by simpa [make_process] using hx
        exact hpq ▸ hb
      · exact h.parent x q (by simpa [make_process, hxc] using hx)
  have hborn₁ : ∀ x, (s.make_process p child).Born x ↔ s.Born x ∨ x = child :=
    born_sets rfl (by simp)
  have hlive₁ : (s.make_process p child).live p = s.live p := Function.update_of_ne hne _ _
  -- the parent goes on
  set u := (s.make_process p child).goto p (.par kind nc left) with hu
  have h₂ : Populated sys u := by
    refine h₁.sets (p := p) (c := { s.live p with code := .par kind nc left })
      (d := (s.make_process p child).stackptr p) rfl rfl ?_ ?_ (by simp) ?_ ?_ (h₁.stackptr p)
      (Or.inl ((hborn₁ p).mpr (Or.inl hb))) (fun x hx => Or.inl (h₁.alting x hx)) h₁.parent
    · rw [hu, Sched.goto, hlive₁]
    · exact (Function.update_eq_self ..).symm
    · exact (h₁.saved p).mpr ((hborn₁ p).mpr (Or.inl hb))
    · have hfine := h₁.live p
      rw [hlive₁] at hfine
      refine fine_goes hfine hmay.2.2.2 (fun kind' nc' left' hx => ?_) fun q hx => ?_
      · cases hx
        exact ⟨hacc, by omega⟩
      · exact hfine.names q (hx.imp_right Or.inl)
  have hborn₂ : ∀ x, u.Born x ↔ s.Born x ∨ x = child := by
    intro x
    have hstep₂ := born_sets (s := s.make_process p child) (t := u) (p := p)
      (c := { s.live p with code := .par kind nc left }) (by rw [hu, Sched.goto, hlive₁])
      (by simp) x
    rw [hstep₂, hborn₁]
    constructor
    · rintro (hx | rfl)
      · exact hx
      · exact Or.inl hb
    · exact Or.inl
  have hframe : ∀ σ, σ ≠ sys.pun p →
      (u.live (u.current σ)).inside = (s.live (s.current σ)).inside := by
    intro σ hσ
    have hcc : s.current σ ≠ child := fun hx => hchild (hx ▸ h.current σ)
    have hcp : s.current σ ≠ p := by
      intro hx
      exact hσ (by rw [← hx, h.pun])
    have hlive : u.live (s.current σ) = s.live (s.current σ) := by
      simp [hu, Sched.goto, make_process, hcp, hcc]
    exact congrArg Context.inside hlive
  have hnewborn : ∀ x, u.Born x →
      s.Born x ∨ ∃ parent, (SchedAct.build p child : SchedAct N U) = .build parent x := by
    intro x hx
    rcases (hborn₂ x).mp hx with hx | rfl
    · exact Or.inl hx
    · exact Or.inr ⟨p, rfl⟩
  have hcb : u.Born child := (hborn₂ child).mpr (Or.inr rfl)
  unfold Sched.enqueue at hstep
  split at hstep
  next hpun =>
    obtain ⟨q', hq', rfl⟩ := Option.map_eq_some_iff.mp hstep
    refine h₂.hands rfl rfl rfl hframe hnewborn (Function.update_eq_self ..).symm
      (Moved.refl u q' _) (.joins hcb hpun hq' (Or.inr ⟨not_readying hmay.1, ?_⟩))
    have hcur : s.current (sys.pun p) = p := hmay.1.1
    exact (congrArg (fun x => pri_le (sys.pri child) (sys.pri x)) hcur).trans hle
  next hpun =>
    obtain ⟨c, hcur, hm, hturn⟩ := schedule0_turn hcb (not_readying hmay.1) hstep
    exact h₂.hands rfl rfl rfl hframe hnewborn hcur hm hturn

end Processes

section Handlers

/-- The entry code saves the interrupted context. -/
theorem Populated.interrupt (h : Populated sys s) {i : Interrupt}
    (hin : (s.live (s.current π)).inside = none) :
    Stepped sys (.interrupt π i) s
      ({ s with
        stackptr := Function.update s.stackptr (s.current π) (s.live (s.current π))
        swapped := Function.update s.swapped (s.current π) false }.handling (s.current π)
          (some i.handler)) := by
  have hfine : Context.Fine sys s.Born (s.current π)
      { s.live (s.current π) with inside := some i.handler } := by
    refine fine_handling (h.live _) fun q hq => ?_
    cases i <;> simp [Interrupt.handler] at hq
  refine h.steps rfl rfl rfl rfl rfl (h.current π) (h.current π) hfine (h.live _) h.alting rfl
    fun hR => ?_
  obtain ⟨_, hx, -⟩ := hR
  exact absurd (hin.symm.trans hx) (Option.some_ne_none _).symm

/-- A process is put into the ready queue by a handler that will look who is first. -/
theorem Stepped.joins (h : Stepped sys act s t) (hsite : act.site sys = π)
    (hq : t.queues = s.queues) (hc : t.current = s.current) (hqb : t.Born q)
    (hpun : sys.pun q = π) (hr : t.Readying π) {u : Sched N U}
    (hstep : t.enqueue0 sys q = some u) : Stepped sys act s u := by
  obtain ⟨q', hq', rfl⟩ := Option.map_eq_some_iff.mp hstep
  refine h.hands hsite hq hc ?_ (Moved.refl t q' (s.current π))
    (.joins hqb hpun (hq ▸ hq') (Or.inl hr))
  rw [hc, Function.update_eq_self]

theorem inside_handling {inside : Handler N} :
    (s.handling (s.current π) (some inside)).Inside π inside := by
  unfold Inside Sched.handling
  simp

/-- The handler goes on. -/
theorem Populated.handling (h : Populated sys s) (hsite : act.site sys = π)
    {inside : Option (Handler N)}
    (hin : ∀ q, inside = some (.freeWaiting q) → s.Born q ∧ sys.pun q = π)
    (hr : s.Readying π → ∃ h', inside = some h' ∧ h'.readies) :
    Stepped sys act s (s.handling (s.current π) inside) :=
  h.handles hsite rfl rfl rfl rfl hin h.alting rfl hr

/-- A handler changes a state field. -/
theorem Populated.marks (h : Populated sys s) (hsite : act.site sys = π)
    (hq : t.queues = s.queues) (hcur : t.current = s.current) (hlive : t.live = s.live)
    (hstack : t.stackptr = s.stackptr) (halt : ∀ x, t.alt_state x ≠ .none → s.Born x)
    (hpar : t.parent = s.parent) : Stepped sys act s t := by
  refine h.handles (i := (s.live (s.current π)).inside) hsite hq hcur ?_ hstack
    (fun q hx => ?_) halt hpar fun hR => hR
  · rw [hlive]
    exact (Function.update_eq_self (s.current π) s.live).symm
  · refine ⟨(h.live _).names q (Or.inr (Or.inr hx)), ?_⟩
    rw [(h.live _).near q hx, h.pun]

theorem Populated.handle (h : Populated sys s) {inside : Handler N} (hin : s.Inside π inside)
    (hstep : s.handle sys π (s.current π) inside = some t) :
    Stepped sys (.handle π) s t := by
  unfold Sched.handle at hstep
  split at hstep
  next =>
    obtain rfl := Option.some.inj hstep
    exact h.handling rfl (by simp) fun _ => ⟨_, rfl, rfl⟩
  next q =>
    have hq : s.Born q := (h.live _).names q (Or.inr (Or.inr hin))
    have hpun : sys.pun q = π := ((h.live _).near q hin).trans (h.pun π)
    dsimp only at hstep
    split at hstep
    · have hst : Stepped sys (.handle π) s
          ((s.handling (s.current π) (some .timeout)).altReady q) :=
        h.handles (i := some .timeout) rfl rfl rfl rfl rfl (by simp)
          (h.alting_update hq) rfl fun _ => ⟨_, rfl, rfl⟩
      have hq' : ((s.handling (s.current π) (some .timeout)).altReady q).Born q :=
        (born_sets (c := { s.live (s.current π) with inside := some .timeout }) rfl
          (h.current π) q).mpr (Or.inl hq)
      exact hst.joins rfl rfl rfl hq' hpun ⟨_, inside_handling (s := s), rfl⟩ hstep
    · obtain rfl := Option.some.inj hstep
      exact h.handling rfl (by simp) fun _ => ⟨_, rfl, rfl⟩
  next =>
    split at hstep
    · obtain rfl := Option.some.inj hstep
      exact h.handling rfl (by simp) fun _ => ⟨_, rfl, rfl⟩
    next proc queues hrem =>
      have hR : ¬s.Readying π := by
        rw [readying_iff hin]
        exact Bool.false_ne_true
      have hproc : s.Born proc := h.queued π proc (h.chained.at_removed hrem).1
      obtain ⟨c, hcur, hm, hturn⟩ := schedule0_turn (B := s.Born) (R := s.Readying π)
        (Q := t.Readying π) (Y := SchedAct.Yields (.handle π : SchedAct N U)) hproc hR hstep
      have hY : ¬SchedAct.Yields (.handle π : SchedAct N U) := by
        intro hy
        obtain ⟨_, hy⟩ := hy
        cases hy
      exact h.hands rfl rfl rfl (fun _ _ => rfl) (fun x hx => Or.inl hx) hcur
        ⟨hm.live, hm.stackptr, hm.alt_state, hm.parent⟩ (.draws hrem hY hturn)
  next =>
    obtain rfl := Option.some.inj hstep
    refine h.handling rfl (by simp) fun hR => ?_
    exact absurd ((readying_iff hin).mp hR) Bool.false_ne_true
  next again =>
    set u := s.handling (s.current π) (some (if again then .preempt false else .exit)) with hu
    have hbu : ∀ x, u.Born x ↔ s.Born x ∨ x = s.current π := born_sets rfl (h.current π)
    have hpop : Populated sys u := by
      refine h.sets rfl rfl rfl (d := s.stackptr (s.current π))
        (Function.update_eq_self ..).symm (h.current π) ((h.saved _).mpr (h.current π))
        (fine_handling (h.live _) fun q hx => ?_) (h.stackptr _) (Or.inl (h.current π))
        (fun x hx => Or.inl (h.alting x hx)) h.parent
      cases again <;> simp at hx
    obtain ⟨c, hcur, hm, hturn⟩ := schedule_from_interrupt_turn (B := u.Born)
      (R := s.Readying π) (Q := t.Readying π) (s := u)
      (Y := SchedAct.Yields (.handle π : SchedAct N U)) h.chained hstep
    refine hpop.hands rfl rfl rfl (fun σ hσ => ?_) (fun x hx => ?_) hcur hm hturn
    · have hne : s.current σ ≠ s.current π := by
        intro hx
        exact hσ (by rw [← h.pun σ, hx, h.pun π]; rfl)
      exact congrArg Context.inside (Function.update_of_ne hne _ _)
    · rcases (hbu x).mp hx with hx | rfl
      · exact Or.inl hx
      · exact Or.inl (h.current π)
  next =>
    obtain rfl := Option.some.inj hstep
    refine h.handling rfl (by simp) fun hR => ?_
    exact absurd ((readying_iff hin).mp hR) Bool.false_ne_true

/-- A handler frees a process of its own processor. -/
theorem Stepped.freeProcess (h : Stepped sys act s (t.ready q)) (hsite : act.site sys = π)
    (htq : t.queues = s.queues) (htc : t.current = s.current) (hqb : t.Born q)
    (hpun : sys.pun q = π) (hr : t.sched_state q = .waiting → t.Readying π) {u : Sched N U}
    (hstep : t.freeProcess sys q = some u) : Stepped sys act s u := by
  unfold Sched.freeProcess at hstep
  split at hstep
  next hw => exact h.joins hsite htq htc hqb hpun (hr hw) hstep
  next =>
    obtain rfl := Option.some.inj hstep
    exact h

theorem Populated.freeAlting (h : Populated sys s) (hpun : sys.pun q = π) :
    Stepped sys (.freeAlting π q) s (s.freeAlting (s.current π) q) := by
  unfold Sched.freeAlting
  split
  next halt =>
    have hq : s.Born q := h.alting q (by simp [halt])
    exact h.marks rfl rfl rfl rfl rfl (h.alting_update hq) rfl
  next halt =>
    have hq : s.Born q := h.alting q (by simp [halt])
    refine h.handling rfl (fun x hx => ?_) fun _ => ⟨_, rfl, rfl⟩
    cases hx
    exact ⟨hq, hpun⟩
  next => exact h.marks rfl rfl rfl rfl rfl h.alting rfl

end Handlers

/-- **Every step is a turn.** -/
theorem Populated.step (h : Populated sys s) (hstep : s.step sys act = some t) :
    Stepped sys act s t := by
  cases step_cases hstep with
  | @prepare p hmay =>
      refine h.acts hmay rfl rfl rfl (e := .prepared) (o := (s.live p).op) rfl rfl
        (by simp) (by simp) (fun q hx => ?_) h.alting rfl
      exact (h.live p).names q (hx.imp_right Or.inl)
  | @select p hmay =>
      refine h.acts hmay rfl rfl rfl (e := .enabling) (o := (s.live p).op) rfl rfl
        (by simp) (by simp) (fun q hx => ?_) (h.alting_update (h.born_current hmay.1.1)) rfl
      exact (h.live p).names q (hx.imp_right Or.inl)
  | @found p hmay =>
      refine h.acts hmay rfl rfl rfl (e := .disabling) (o := (s.live p).op) rfl rfl
        (by simp) (by simp) (fun q hx => ?_) h.alting rfl
      exact (h.live p).names q (hx.imp_right Or.inl)
  | @par p kind nc hmay haccepts =>
      refine h.acts hmay rfl rfl rfl (e := .par kind nc nc) (o := (s.live p).op) rfl rfl
        (by simp) (fun kind' nc' left hx => ?_) (fun q hx => ?_) h.alting rfl
      · cases hx
        exact ⟨haccepts, le_rfl⟩
      · exact (h.live p).names q (hx.imp_right Or.inl)
  | build hcode hmay hunborn hpri hpun henqueue =>
      exact h.build hcode hmay hunborn hpri henqueue
  | wake hmay hwaits => exact h.wake hmay hwaits rfl
  | free hmay => exact h.free hmay rfl
  | yield hmay hyield => exact h.yield hmay hyield
  | sync hmay hparent => exact h.sync hmay hparent
  | run hruns hrun => exact h.run hruns hrun
  | interrupt hinside henabled => exact h.interrupt hinside
  | @timeout π q t hpun hwaits hinside hfree =>
      have hready : Stepped sys (.freeProcess π q) s (s.ready q) :=
        h.marks rfl rfl rfl rfl rfl h.alting rfl
      exact hready.freeProcess rfl rfl rfl (born_of_waits hwaits) hpun
        (fun _ => ⟨_, hinside, rfl⟩) hfree
  | @transmit π q t hpun hwaits hinside hfree =>
      have hready : Stepped sys (.freeProcess π q) s ((s.handling (s.current π)
          (some (.preempt (s.sched_state q = .waiting)))).ready q) :=
        h.handles rfl rfl rfl rfl rfl (by simp) h.alting rfl fun _ => ⟨_, rfl, rfl⟩
      have hborn : (s.handling (s.current π)
          (some (.preempt (s.sched_state q = .waiting)))).Born q :=
        (born_sets (c := { s.live (s.current π) with
            inside := some (.preempt (s.sched_state q = .waiting)) }) rfl (h.current π) q).mpr
          (Or.inl (born_of_waits hwaits))
      exact hready.freeProcess rfl rfl rfl hborn hpun (fun _ => ⟨_, inside_handling, rfl⟩) hfree
  | freeAlting hpun hinside => exact h.freeAlting hpun
  | handle hinside hhandle => exact h.handle hinside hhandle

end Sched

end Cxp
