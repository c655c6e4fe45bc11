import Cxp.CommunicationWakers
import Cxp.CommunicationSteps

/-!
# The selects, step by step

A process in a select registers itself at the channels of its guards, one by
one, and takes itself off them again.  At each channel that is the beginning,
the middle or the end of an alternation, whatever else the select does.
-/

namespace Cxp

open Meeting Timers

variable {N U : Nat} {Chan Msg : Type} [DecidableEq Chan]

namespace Select

variable {f : Select Chan} {k : Nat} {c : Chan}

omit [DecidableEq Chan] in
/-- One guard more. -/
theorem Active.succ_iff : f.Active (k + 1) c ↔ f.Active k c ∨ f.guard k = some (.chan c) := by
  constructor
  · rintro ⟨j, hj, hg⟩
    by_cases hjk : j = k
    · exact Or.inr (hjk ▸ hg)
    · exact Or.inl ⟨j, by omega, hg⟩
  · rintro (⟨j, hj, hg⟩ | hg)
    · exact ⟨j, by omega, hg⟩
    · exact ⟨k, by omega, hg⟩

omit [DecidableEq Chan] in
theorem Active.mono {l : Nat} (h : f.Active k c) (hkl : k ≤ l) : f.Active l c := by
  obtain ⟨j, hj, hg⟩ := h
  exact ⟨j, by omega, hg⟩

omit [DecidableEq Chan] in
/-- There are no guards behind the last. -/
theorem Active.le_size (h : f.Active k c) : f.Active (min k f.size) c := by
  obtain ⟨j, hj, hg⟩ := h
  have hsize : j < f.size := by
    unfold guard at hg
    split at hg
    · assumption
    · cases hg
  exact ⟨j, by omega, hg⟩

omit [DecidableEq Chan] in
theorem not_active_zero : ¬ f.Active 0 c := by
  rintro ⟨j, hj, _⟩
  omega

omit [DecidableEq Chan] in
/-- The guards looked at are all the guards. -/
theorem guard_eq_none : f.guard k = none ↔ f.size ≤ k := by
  unfold guard
  split
  next hk =>
    have hindex : f.index k < f.guards.length := Nat.mod_lt _ (by omega)
    rw [List.getElem?_eq_getElem hindex]
    simp only [reduceCtorEq, false_iff]
    omega
  next hk => simpa using hk

omit [DecidableEq Chan] in
/-- A channel among the guards is read by the process. -/
theorem Active.readBy {net : Net N Chan} {p : Fin N}
    (h : f.Active k c) (hf : f.guards.all (·.readBy net p) = true) :
    net.role c .input = p := by
  obtain ⟨j, _, hg⟩ := h
  unfold guard at hg
  split at hg
  · have hmem := List.mem_of_getElem? hg
    simpa [Guard.readBy] using List.all_eq_true.mp hf _ hmem
  · cases hg

end Select

/-- The process lists the channel, in the part of a select that it is in. -/
def Pc.Lists (pc : Pc N Chan) (c : Chan) : Prop :=
  ∃ f k, pc.guards = some (f, k) ∧ f.Active k c

/-- What a process outside the calls of `in` and `out` shows. -/
theorem Pc.party_lists {pc : Pc N Chan} (h : pc.channel = none) (c : Chan) (buf : Msg)
    (st : SchedState) (run : Bool) :
    (pc.Lists c ∧ pc.party c buf st run = .alting) ∨
      (¬ pc.Lists c ∧ pc.party c buf st run = .away) := by
  by_cases hl : pc.Lists c
  · obtain ⟨f, k, hg, hc⟩ := hl
    exact Or.inl ⟨⟨f, k, hg, hc⟩, Pc.party_alting hg hc buf st run⟩
  · refine Or.inr ⟨hl, Pc.party_away (by simp [h]) (fun f k hg hc => hl ⟨f, k, hg, hc⟩) ..⟩

omit [DecidableEq Chan] in
theorem Pc.lists_iff {pc : Pc N Chan} {f : Select Chan} {k : Nat}
    (h : pc.guards = some (f, k)) {c : Chan} : pc.Lists c ↔ f.Active k c := by
  constructor
  · rintro ⟨f', k', hg, hc⟩
    obtain ⟨rfl, rfl⟩ : f = f' ∧ k = k' := by simpa using h.symm.trans hg
    exact hc
  · exact fun hc => ⟨f, k, h, hc⟩

omit [DecidableEq Chan] in
/-- A place in a select keeps to a process's role when the guards do. -/
theorem RoleOk.of_select {net : Net N Chan} {p : Fin N} {pc : Pc N Chan}
    (hchan : pc.channel = none)
    (hread : ∀ f k, pc.guards = some (f, k) → f.guards.all (·.readBy net p) = true)
    (htimer : ∀ f k, (∃ time, pc = .fill f k time) ∨ (∃ desc, pc = .insert f k desc) →
      ∀ c, f.guard k ≠ some (.chan c)) : RoleOk net p pc where
  channel := by simp [hchan]
  wake := by
    rintro e c q (rfl | rfl) <;> simp [Pc.channel] at hchan
  free := by
    rintro c q (rfl | rfl | rfl) <;> simp [Pc.channel] at hchan
  guards := fun f k _ hg hc => hc.readBy (hread f k hg)
  readBy := hread
  timer := htimer

namespace Comm

variable {net : Net N Chan} {s t : Comm N U Chan Msg} {p : Fin N} {pc' : Pc N Chan}

/-- What a step of a select does at a channel that the process reads: nothing,
it registers itself, or it takes itself off. -/
inductive Relists (s t : Comm N U Chan Msg) (p : Fin N) (pc' : Pc N Chan) (c : Chan) : Prop
  | stays (hown : t.own c = s.own c) (h : pc'.Lists c ∨ s.waiting c ≠ some p)
  | listens (hnone : s.waiting c = none)
      (hown : t.own c = (some p, none, s.outs c, s.stored c, s.received c, s.outsDone c))
      (h : pc'.Lists c)
  | unlistens (hwas : s.waiting c = none ∨ s.waiting c = some p)
      (hown : t.own c =
        (none, s.ptr c, s.outs c, s.stored c, s.received c, s.outsDone c))

/-- A step of a select. -/
theorem Inv.alts (h : Inv net s) (hpc : t.pc = Function.update s.pc p pc')
    (hold : (s.pc p).channel = none) (hnew : pc'.channel = none)
    (hrole : RoleOk net p pc') (hwakes : t.Wakes)
    (hsame : t.src = s.src ∧ t.dest = s.dest ∧ t.sched_state = s.sched_state)
    (hrun : ∀ q, q ≠ p → t.runnable q = s.runnable q)
    (hself : pc'.blocked = false → t.runnable p = true)
    (halt : ∀ q, q ≠ p → t.alt_state q = s.alt_state q)
    (hchan : ∀ c, net.role c .input = p → Relists s t p pc' c)
    (hown : ∀ c, net.role c .input ≠ p → t.own c = s.own c)
    (hvisit : ∀ f k, pc'.guards = some (f, k) → pc'.stage ≠ .disabling →
      ∀ c, f.Active k c → t.Visit net p c)
    (htype : ∀ d, t.tm.type d = .alting) : Inv net t := by
  obtain ⟨hsrc, hdest, hst⟩ := hsame
  have hbuf : ∀ e, t.buf e = s.buf e := by
    intro e
    cases e
    · exact hdest
    · exact hsrc
  have hparty : ∀ c e, net.role c e ≠ p → t.party net c e = s.party net c e := by
    intro c e he
    exact party_peer hpc he (by rw [hbuf]) (by rw [hst]) (hrun _ he)
  have haway : ∀ c, net.role c .output = p → t.party net c .output = s.party net c .output := by
    intro c hc
    have hnot : ∀ pc : Pc N Chan, RoleOk net p pc → ¬ pc.Lists c := by
      rintro pc hr ⟨f, k, hg, hactive⟩
      exact net.distinct c ((hr.guards f k c hg hactive).trans hc.symm)
    rw [party_self hpc hc, party, hc]
    rcases Pc.party_lists hnew c (t.buf .output p) (t.sched_state p) (t.runnable p) with
      ⟨hl, _⟩ | ⟨_, hshow⟩
    · exact absurd hl (hnot pc' hrole)
    rcases Pc.party_lists hold c (s.buf .output p) (s.sched_state p) (s.runnable p) with
      ⟨hl, _⟩ | ⟨_, hshow'⟩
    · exact absurd hl (hnot _ (h.roles p))
    · rw [hshow, hshow']
  refine ⟨roles_update h.roles hpc hrole, ?_, fun c => ?_, hwakes, ?_, htype⟩
  · exact runs_update h.runs hpc hself fun q hq => Or.inl (hrun q hq)
  · have hwriter : t.party net c .output = s.party net c .output := by
      by_cases hc : net.role c .output = p
      · exact haway c hc
      · exact hparty c .output hc
    by_cases hc : net.role c .input = p
    swap
    · rw [view_eq (hparty c .input hc) hwriter (hown c hc)]
      exact h.meets c
    have hfree : (s.view net c).Unbound := by
      have hshow := Pc.party_lists hold c (s.buf .input p) (s.sched_state p) (s.runnable p)
      have hreader : (s.view net c).reader =
          (s.pc p).party c (s.buf .input p) (s.sched_state p) (s.runnable p) := by
        simp only [view, party, hc]
      rw [Unbound, hreader]
      exact hshow.elim (fun h => Or.inr h.2) (fun h => Or.inl h.2)
    have hself' : t.party net c .input =
        pc'.party c (t.buf .input p) (t.sched_state p) (t.runnable p) := party_self hpc hc
    have hshow := Pc.party_lists hnew c (t.buf .input p) (t.sched_state p) (t.runnable p)
    rw [← hself'] at hshow
    have hmeets := h.meets c
    cases hchan c hc with
    | stays hown hl =>
        have hview : t.view net c = { s.view net c with reader := t.party net c .input } :=
          view_ext rfl hwriter hown
        rw [hview]
        refine hmeets.alts hfree ?_
        rcases hshow with ⟨_, ha⟩ | ⟨hno, ha⟩
        · exact Or.inr ha
        · refine Or.inl ⟨ha, ?_⟩
          rw [hc]
          exact hl.resolve_left hno
    | listens hnone hown hl =>
        have ha : t.party net c .input = .alting := (hshow.resolve_right fun h => h.1 hl).2
        have hview : t.view net c = (s.view net c).listen (net.role c .input) :=
          view_ext ha hwriter (hc.symm ▸ hown)
        rw [hview]
        exact hmeets.listen (net.distinct c) hfree hnone
    | unlistens hwas hown =>
        have hview : t.view net c =
            { { s.view net c with waiting := none } with
              reader := t.party net c .input } :=
          view_ext rfl hwriter hown
        have hnot : (s.view net c).waiting ≠ some (net.role c .output) := by
          intro hw
          rcases hwas with hn | hs
          · exact absurd (hw.symm.trans hn) (by simp)
          · have heq := hw.symm.trans hs
            rw [← hc] at heq
            exact net.distinct c (Option.some.inj heq).symm
        rw [hview]
        refine (hmeets.unlisten hfree hnot).alts hfree ?_
        rcases hshow with ⟨_, ha⟩ | ⟨_, ha⟩
        · exact Or.inr ha
        · exact Or.inl ⟨ha, by simp⟩
  · intro r f k hr hs c hc
    by_cases hrp : r = p
    · subst hrp
      rw [hpc, Function.update_self] at hr hs
      exact hvisit f k hr hs c hc
    · rw [hpc, Function.update_of_ne hrp] at hr hs
      have hin : net.role c .input = r := (h.roles r).guards f k c hr hc
      have hown' := hown c (hin ▸ hrp)
      simp only [own, Prod.mk.injEq] at hown'
      refine (h.visited r f k hr hs c hc).frame hown'.1 (halt r hrp) fun hf => ?_
      rw [hpc]
      refine Function.update_of_ne ?_ _ _
      intro heq
      rw [heq] at hf
      rcases hf with hf | hf <;> simp [hf, Pc.channel] at hold

/-- Where a process does not list a channel that it reads, it is not registered. -/
theorem Inv.unlisted (h : Inv net s) (hold : (s.pc p).channel = none) {c : Chan}
    (hc : net.role c .input = p) (hl : ¬ (s.pc p).Lists c) : s.waiting c ≠ some p := by
  have hreader : (s.view net c).reader = .away := by
    have hshow := Pc.party_lists hold c (s.buf .input p) (s.sched_state p) (s.runnable p)
    simp only [view, party, hc]
    exact (hshow.resolve_left fun h => hl h.1).2
  intro hw
  rcases (h.meets c).holder with h1 | ⟨h1, _⟩ | ⟨_, _, h3⟩ | ⟨_, _, h3⟩
  · exact absurd (hw.symm.trans h1) (by simp)
  · have heq := hw.symm.trans h1
    rw [← hc] at heq
    exact net.distinct c (Option.some.inj heq)
  · simp [hreader] at h3
  · simp [hreader] at h3

/-- A step of a select that neither registers the process anywhere nor takes it
off, nor touches its `alt_state`. -/
theorem Inv.moves (h : Inv net s) (hold : (s.pc p).channel = none)
    (hnew : pc'.channel = none) (hrole : RoleOk net p pc')
    (hstage : (pc'.stage = (s.pc p).stage ∧ pc'.stage ≠ .blocked) ∨
      (pc'.stage = .disabling ∧ ((s.pc p).stage = .enabling ∨
        ((s.pc p).stage = .blocked ∧ s.runnable p = true))))
    (hlists : ∀ c, (s.pc p).Lists c → pc'.Lists c)
    (hback : pc'.stage = .enabling → ∀ c, pc'.Lists c → (s.pc p).Lists c)
    {tm : Timers N U} (htype : ∀ d, tm.type d = .alting) :
    Inv net ({ s with tm := tm }.goto p pc') := by
  have hunfree : ∀ c q, s.pc p ≠ .freeSchedule c q ∧ s.pc p ≠ .free c q ∧
      s.pc p ≠ .freeWaiting c q := by
    intro c q
    refine ⟨?_, ?_, ?_⟩ <;> intro heq <;> simp [heq, Pc.channel] at hold
  have hrunnable : s.runnable p = true := by
    rcases hstage with ⟨heq, hne⟩ | ⟨_, he | ⟨_, hr⟩⟩
    · refine h.runs p ?_
      cases hp : s.pc p <;> simp [hp, Pc.stage, Pc.blocked, Pc.channel] at heq hne hold ⊢
      exact hne heq
    · refine h.runs p ?_
      cases hp : s.pc p <;> simp [hp, Pc.stage, Pc.blocked] at he ⊢
    · exact hr
  have hp := h.wakes.each p
  refine h.alts rfl hold hnew hrole ?_ ⟨rfl, rfl, rfl⟩ (fun _ _ => rfl) (fun _ => hrunnable)
    (fun _ _ => rfl) ?_ (fun _ _ => rfl) ?_ htype
  · refine h.wakes.frame rfl ⟨rfl, rfl, rfl, rfl, rfl, rfl⟩ (fun c q => (hunfree c q).1) ?_
      ?_ ?_ ?_ (fun _ => hrunnable) (fun _ _ _ => rfl)
    · intro c q heq
      simp [heq, Pc.channel] at hnew
    · have halt := hp.alt
      rcases hstage with ⟨heq, _⟩ | ⟨heq, he | ⟨hb, hr⟩⟩
      · rw [heq]
        exact halt
      · rw [heq]
        rw [he] at halt
        exact halt
      · rw [heq]
        rw [hb] at halt
        refine Or.inr (halt.resolve_left fun hw => ?_)
        exact absurd (hr.symm.trans (hp.resting hw).1) (by simp)
    · rcases hstage with ⟨_, hne⟩ | ⟨heq, _⟩
      · exact hne
      · simp [heq]
    · intro he
      rcases hstage with ⟨heq, _⟩ | ⟨heq, _⟩
      · exact heq.symm.trans he
      · rw [heq] at he
        cases he
  · intro c hc
    refine .stays rfl ?_
    by_cases hl : (s.pc p).Lists c
    · exact Or.inl (hlists c hl)
    · exact Or.inr (h.unlisted hold hc hl)
  · intro f k hg hs c hc
    have he : pc'.stage = .enabling := by
      rcases hstage with ⟨_, hne⟩ | ⟨heq, _⟩
      · cases hp : pc' <;> simp [hp, Pc.guards, Pc.stage] at hg hs hne ⊢
      · exact absurd heq hs
    obtain ⟨f', k', hg', hc'⟩ := hback he c ⟨f, k, hg, hc⟩
    have hs' : (s.pc p).stage ≠ .disabling := by
      rcases hstage with ⟨heq, _⟩ | ⟨heq, _⟩
      · rw [← heq, he]
        simp
      · exact absurd heq hs
    refine (h.visited p f' k' hg' hs' c hc').frame rfl rfl fun hf => ?_
    refine Function.update_of_ne ?_ _ _
    intro heq
    rw [heq] at hf
    exact hf.elim (hunfree c p).2.1 (hunfree c p).2.2

/-- From one place in a select to another with the same guards or more. -/
theorem Inv.moves_on (h : Inv net s) {f : Select Chan} {k k' : Nat}
    (hg : (s.pc p).guards = some (f, k)) (hg' : pc'.guards = some (f, k'))
    (hold : (s.pc p).channel = none) (hnew : pc'.channel = none)
    (htimer : ∀ f k, (∃ time, pc' = .fill f k time) ∨ (∃ desc, pc' = .insert f k desc) →
      ∀ c, f.guard k ≠ some (.chan c))
    (hstage : (pc'.stage = (s.pc p).stage ∧ pc'.stage ≠ .blocked) ∨
      (pc'.stage = .disabling ∧ ((s.pc p).stage = .enabling ∨
        ((s.pc p).stage = .blocked ∧ s.runnable p = true))))
    (hlists : ∀ c, f.Active k c → f.Active k' c)
    (hback : pc'.stage = .enabling → ∀ c, f.Active k' c → f.Active k c)
    {tm : Timers N U} (htype : ∀ d, tm.type d = .alting) :
    Inv net ({ s with tm := tm }.goto p pc') := by
  refine h.moves hold hnew ?_ hstage ?_ ?_ htype
  · refine RoleOk.of_select hnew ?_ htimer
    intro f' l hl
    obtain ⟨rfl, rfl⟩ : f = f' ∧ k' = l := by simpa using hg'.symm.trans hl
    exact (h.roles p).readBy f k hg
  · intro c
    rw [Pc.lists_iff hg, Pc.lists_iff hg']
    exact hlists c
  · intro he c
    rw [Pc.lists_iff hg, Pc.lists_iff hg']
    exact hback he c

omit [DecidableEq Chan] in
/-- A guard that is no channel adds none. -/
theorem active_succ {f : Select Chan} {k : Nat} (hg : ∀ c, f.guard k ≠ some (.chan c))
    (c : Chan) : f.Active (k + 1) c ↔ f.Active k c := by
  rw [Select.Active.succ_iff]
  exact or_iff_left (hg c)

omit [DecidableEq Chan] in
/-- There are no guards behind the last. -/
theorem active_size {f : Select Chan} {k : Nat} (hk : f.size ≤ k) (c : Chan) :
    f.Active f.size c ↔ f.Active k c := by
  constructor
  · exact fun hc => hc.mono hk
  · exact fun hc => hc.le_size.mono (Nat.min_le_right _ _)

/-- The readiness check of `enable_timeout`. -/
theorem Inv.enable_timeout (h : Inv net s) {f : Select Chan} {k l : Nat} {time : Int}
    (hpc : s.pc p = .enable f k) (hguard : ∀ c, f.guard l ≠ some (.chan c))
    (hactive : ∀ c, f.Active l c ↔ f.Active k c) :
    Inv net (s.goto p (s.enable_timeout f l time)) := by
  have hg : (s.pc p).guards = some (f, k) := by rw [hpc]; rfl
  have hch : (s.pc p).channel = none := by rw [hpc]; rfl
  have hst : (s.pc p).stage = .enabling := by rw [hpc]; rfl
  unfold Comm.enable_timeout
  split
  · refine h.moves_on hg rfl hch rfl (by simp) (Or.inr ⟨rfl, Or.inl hst⟩) ?_ (by simp [Pc.stage])
      h.alting
    intro c hc
    exact ((hactive c).mpr hc).le_size.mono (by omega)
  · refine h.moves_on hg rfl hch rfl ?_ (Or.inl ⟨by rw [hst]; rfl, by simp [Pc.stage]⟩)
      (fun c hc => (hactive c).mpr hc) (fun _ c hc => (hactive c).mp hc) h.alting
    intro f' k' hf
    obtain ⟨rfl, rfl⟩ : f = f' ∧ l = k' := by simpa using hf
    exact hguard

/-- The process registers itself at the channel of the next guard. -/
theorem Inv.listens (h : Inv net s) {f : Select Chan} {k : Nat} {c : Chan}
    (hpc : s.pc p = .enable f k) (hguard : f.guard k = some (.chan c))
    (hnone : s.waiting c = none) :
    Inv net ({ s with
        waiting := Function.update s.waiting c (some p)
        ptr := Function.update s.ptr c none }.goto p (.enable f (k + 1))) := by
  have hg : (s.pc p).guards = some (f, k) := by rw [hpc]; rfl
  have hch : (s.pc p).channel = none := by rw [hpc]; rfl
  have hread := (h.roles p).readBy f k hg
  have hactive : f.Active (k + 1) c := Select.Active.succ_iff.mpr (Or.inr hguard)
  have hc : net.role c .input = p := hactive.readBy hread
  have hrole : RoleOk net p (.enable f (k + 1)) := by
    refine RoleOk.of_select rfl ?_ (by simp)
    rintro f' l hl
    cases hl
    exact hread
  refine h.alts rfl hch rfl hrole ?_ ⟨rfl, rfl, rfl⟩ (fun _ _ => rfl) (fun _ => ?_)
    (fun _ _ => rfl) ?_ ?_ ?_ h.alting
  · refine h.wakes.frame rfl ⟨rfl, rfl, rfl, rfl, rfl, rfl⟩ (by simp [hpc]) (by simp)
      ?_ (by simp [Pc.stage]) (by simp [hpc, Pc.stage]) (by simp [hpc, Pc.stage])
      (fun _ _ _ => rfl)
    have halt := (h.wakes.each p).alt
    rw [hpc] at halt
    exact halt
  · exact h.runs p (by simp [hpc, Pc.blocked])
  · intro d hd
    by_cases hdc : d = c
    · subst hdc
      refine .listens hnone ?_ ⟨f, k + 1, rfl, hactive⟩
      simp [own, goto]
    · refine .stays (by simp [own, goto, hdc]) ?_
      by_cases hl : (s.pc p).Lists d
      · exact Or.inl ⟨f, k + 1, rfl, ((Pc.lists_iff hg).mp hl).mono (by omega)⟩
      · exact Or.inr (h.unlisted hch hd hl)
  · intro d hd
    have hdc : d ≠ c := by
      rintro rfl
      exact hd hc
    simp [own, goto, hdc]
  · rintro f' l hl - d hd
    cases hl
    by_cases hdc : d = c
    · subst hdc
      exact Or.inl (Function.update_self ..)
    · have hold : f.Active k d := by
        refine (Select.Active.succ_iff.mp hd).resolve_right fun hg' => hdc ?_
        simpa using hg'.symm.trans hguard
      have hv := h.visited p f k hg (by simp [hpc, Pc.stage]) d hold
      refine hv.frame (by simp [goto, hdc]) rfl fun hf => ?_
      refine Function.update_of_ne ?_ _ _
      intro heq
      rw [heq, hpc] at hf
      simp at hf

/-- The next round of the enabling loop. -/
theorem Inv.enable (h : Inv net s) {f : Select Chan} {k : Nat}
    (hpc : s.pc p = .enable f k) : Inv net (s.enable p f k) := by
  have hg : (s.pc p).guards = some (f, k) := by rw [hpc]; rfl
  have hch : (s.pc p).channel = none := by rw [hpc]; rfl
  have hst : (s.pc p).stage = .enabling := by rw [hpc]; rfl
  have hstop : Inv net (s.goto p (.disable f (k + 1) none)) :=
    h.moves_on hg rfl hch rfl (by simp) (Or.inr ⟨rfl, Or.inl hst⟩)
      (fun c hc => hc.mono (by omega)) (by simp [Pc.stage]) h.alting
  unfold Comm.enable
  split
  next c hguard =>
    unfold enable_channel
    split
    next q hq =>
      by_cases hqp : q = p
      · subst hqp
        have hc : net.role c .input = q :=
          Select.Active.readBy (k := k + 1) (Select.Active.succ_iff.mpr (Or.inr hguard))
            ((h.roles q).readBy f k hg)
        have hl : f.Active k c := by
          by_contra hno
          exact h.unlisted hch hc (fun hl => hno ((Pc.lists_iff hg).mp hl)) hq
        have hactive : ∀ d, f.Active (k + 1) d → f.Active k d := by
          intro d hd
          rcases Select.Active.succ_iff.mp hd with hd | hd
          · exact hd
          · obtain rfl : c = d := by simpa using hguard.symm.trans hd
            exact hl
        simp only [ne_eq, not_true_eq_false, decide_false, Bool.false_eq_true, if_false]
        exact h.moves_on hg rfl hch rfl (by simp)
          (Or.inl ⟨by rw [hst]; rfl, by simp [Pc.stage]⟩)
          (fun d hd => hd.mono (by omega)) (fun _ => hactive) h.alting
      · simpa only [ne_eq, hqp, not_false_eq_true, decide_true, if_true] using hstop
    next hnone =>
      simpa only [Bool.false_eq_true, if_false] using h.listens hpc hguard hnone
  next => exact hstop
  next time hguard =>
    exact h.enable_timeout hpc (by simp [hguard]) (fun _ => Iff.rfl)
  next hguard =>
    have hk := Select.guard_eq_none.mp hguard
    have hend : ∀ c, f.guard f.size ≠ some (.chan c) := by
      simp [Select.guard_eq_none.mpr (Nat.le_refl f.size)]
    split
    next => exact h.enable_timeout hpc hend (active_size hk)
    next =>
      exact h.moves_on hg rfl hch rfl (by simp)
        (Or.inl ⟨by rw [hst]; rfl, by simp [Pc.stage]⟩)
        (fun c hc => (active_size hk c).mpr hc) (fun _ c hc => (active_size hk c).mp hc)
        h.alting

/-- Enabling a timer: the descriptor is filled in, and then queued. -/
theorem Inv.queues (h : Inv net s) {f : Select Chan} {k : Nat} :
    (∀ time, s.pc p = .fill f k time → ∀ (tm : Timers N U) desc,
      (∀ d, tm.type d = .alting) → Inv net ({ s with tm := tm }.goto p (.insert f k desc))) ∧
    (∀ desc, s.pc p = .insert f k desc → ∀ tm : Timers N U,
      (∀ d, tm.type d = .alting) → Inv net ({ s with tm := tm }.goto p (enabled f k))) := by
  refine ⟨fun time hpc tm desc htm => ?_, fun desc hpc tm htm => ?_⟩
  · have hguard := (h.roles p).timer f k (Or.inl ⟨time, hpc⟩)
    refine h.moves_on (by rw [hpc]; rfl) rfl (by rw [hpc]; rfl) rfl ?_
      (Or.inl ⟨by rw [hpc]; rfl, by simp [Pc.stage]⟩) (fun _ hc => hc) (fun _ _ hc => hc) htm
    intro f' k' hf
    obtain ⟨rfl, rfl⟩ : f = f' ∧ k = k' := by simpa using hf
    exact hguard
  · have hguard := (h.roles p).timer f k (Or.inr ⟨desc, hpc⟩)
    unfold enabled
    split
    · exact h.moves_on (by rw [hpc]; rfl) rfl (by rw [hpc]; rfl) rfl (by simp)
        (Or.inl ⟨by rw [hpc]; rfl, by simp [Pc.stage]⟩)
        (fun c hc => (active_succ hguard c).mpr hc)
        (fun _ c hc => (active_succ hguard c).mp hc) htm
    next hk =>
      exact h.moves_on (by rw [hpc]; rfl) rfl (by rw [hpc]; rfl) rfl (by simp)
        (Or.inl ⟨by rw [hpc]; rfl, by simp [Pc.stage]⟩)
        (fun c hc => (active_size (by omega) c).mpr hc)
        (fun _ c hc => (active_size (by omega) c).mp hc) htm

/-- The process finds itself Ready, or goes on from Waiting, and disables. -/
theorem Inv.resumes (h : Inv net s) {f : Select Chan}
    (hpc : s.pc p = .shouldWait f ∨ (s.pc p = .altWait f ∧ s.runnable p = true)) :
    Inv net (s.goto p (.disable f f.size none)) := by
  rcases hpc with hpc | ⟨hpc, hrun⟩
  · exact h.moves_on (by rw [hpc]; rfl) rfl (by rw [hpc]; rfl) rfl (by simp)
      (Or.inr ⟨rfl, Or.inl (by rw [hpc]; rfl)⟩) (fun _ hc => hc) (by simp [Pc.stage]) h.alting
  · exact h.moves_on (by rw [hpc]; rfl) rfl (by rw [hpc]; rfl) rfl (by simp)
      (Or.inr ⟨rfl, Or.inr ⟨by rw [hpc]; rfl, hrun⟩⟩) (fun _ hc => hc) (by simp [Pc.stage])
      h.alting

/-- Disabling a timer: an entry is looked for, and what was found is released. -/
theorem Inv.dequeues (h : Inv net s) {f : Select Chan} {k : Nat}
    (hg : (s.pc p).guards = some (f, k)) (hst : (s.pc p).stage = .disabling)
    (hch : (s.pc p).channel = none) (hg' : pc'.guards = some (f, k))
    (hst' : pc'.stage = .disabling) (hch' : pc'.channel = none)
    {tm : Timers N U} (htm : ∀ d, tm.type d = .alting) :
    Inv net ({ s with tm := tm }.goto p pc') := by
  refine h.moves_on hg hg' hch hch' ?_ (Or.inl ⟨hst'.trans hst.symm, by simp [hst']⟩)
    (fun _ hc => hc) (fun _ _ hc => hc) htm
  rintro f' k' (⟨_, rfl⟩ | ⟨_, rfl⟩) <;> simp [Pc.stage] at hst'

/-- The process takes itself off the channel of the next guard, if it is there. -/
theorem Inv.unlistens (h : Inv net s) {f : Select Chan} {k : Nat} {c : Chan}
    {sel : Option Nat} (hpc : s.pc p = .disable f (k + 1) sel)
    (hguard : f.guard k = some (.chan c)) {waiting : Chan → Option (Fin N)}
    (hother : ∀ d, d ≠ c → waiting d = s.waiting d)
    (hself : (waiting c = s.waiting c ∧ s.waiting c ≠ some p) ∨
      (waiting c = none ∧ (s.waiting c = none ∨ s.waiting c = some p)))
    (sel' : Option Nat) :
    Inv net ({ s with waiting := waiting }.goto p (.disable f k sel')) := by
  have hg : (s.pc p).guards = some (f, k + 1) := by rw [hpc]; rfl
  have hch : (s.pc p).channel = none := by rw [hpc]; rfl
  have hread := (h.roles p).readBy f (k + 1) hg
  have hc : net.role c .input = p :=
    Select.Active.readBy (k := k + 1) (Select.Active.succ_iff.mpr (Or.inr hguard)) hread
  have hrole : RoleOk net p (.disable f k sel') := by
    refine RoleOk.of_select rfl ?_ (by simp)
    rintro f' l hl
    cases hl
    exact hread
  refine h.alts rfl hch rfl hrole ?_ ⟨rfl, rfl, rfl⟩ (fun _ _ => rfl) (fun _ => ?_)
    (fun _ _ => rfl) ?_ ?_ (fun _ _ _ hs => absurd rfl hs) h.alting
  · refine h.wakes.frame rfl ⟨rfl, rfl, rfl, rfl, rfl, rfl⟩ (by simp [hpc]) (by simp)
      ?_ (by simp [Pc.stage]) (by simp [Pc.stage]) (by simp [hpc, Pc.stage])
      (fun _ _ _ => rfl)
    have halt := (h.wakes.each p).alt
    rw [hpc] at halt
    exact halt
  · exact h.runs p (by simp [hpc, Pc.blocked])
  · intro d hd
    by_cases hdc : d = c
    · subst hdc
      rcases hself with ⟨heq, hne⟩ | ⟨heq, hwas⟩
      · exact .stays (by simp [own, goto, heq]) (Or.inr hne)
      · exact .unlistens hwas (by simp [own, goto, heq])
    · refine .stays (by simp [own, goto, hother d hdc]) ?_
      by_cases hl : (s.pc p).Lists d
      · refine Or.inl ⟨f, k, rfl, ?_⟩
        refine (Select.Active.succ_iff.mp ((Pc.lists_iff hg).mp hl)).resolve_right ?_
        intro hg'
        exact hdc (by simpa using hg'.symm.trans hguard)
      · exact Or.inr (h.unlisted hch hd hl)
  · intro d hd
    have hdc : d ≠ c := by
      rintro rfl
      exact hd hc
    simp [own, goto, hother d hdc]

/-- The next round of the disabling loop. -/
theorem Inv.disable (h : Inv net s) {f : Select Chan} {sel : Option Nat} {k : Nat}
    (hpc : s.pc p = .disable f k sel) (hstep : s.disable p f sel k = some t) :
    Inv net t := by
  have hg : (s.pc p).guards = some (f, k) := by rw [hpc]; rfl
  have hch : (s.pc p).channel = none := by rw [hpc]; rfl
  have hst : (s.pc p).stage = .disabling := by rw [hpc]; rfl
  cases k with
  | zero =>
      obtain rfl := Option.some.inj hstep
      exact h.dequeues hg hst hch rfl rfl rfl h.alting
  | succ k =>
      have hskip : (∀ c, f.guard k ≠ some (.chan c)) → ∀ pc' : Pc N Chan,
          pc'.guards = some (f, k) → pc'.channel = none → pc'.stage = .disabling →
          Inv net (s.goto p pc') := by
        intro hno pc' hg' hch' hst'
        refine h.moves_on hg hg' hch hch' ?_ (Or.inl ⟨hst'.trans hst.symm, by simp [hst']⟩)
          (fun c hc => (active_succ hno c).mp hc) (by simp [hst']) h.alting
        rintro f' k' (⟨_, rfl⟩ | ⟨_, rfl⟩) <;> simp [Pc.stage] at hst'
      simp only [Comm.disable] at hstep
      split at hstep
      next c hguard =>
        obtain rfl := Option.some.inj hstep
        unfold disable_channel
        split
        next hready =>
          exact h.unlistens hpc hguard (fun _ _ => rfl) (Or.inl ⟨rfl, hready.2⟩) _
        next hready =>
          refine h.unlistens hpc hguard (fun d hd => Function.update_of_ne hd _ _)
            (Or.inr ⟨Function.update_self .., ?_⟩) _
          by_contra hno
          exact hready ⟨fun hn => hno (Or.inl hn), fun hs => hno (Or.inr hs)⟩
      next hguard =>
        obtain rfl := Option.some.inj hstep
        exact hskip (by simp [hguard]) _ rfl rfl rfl
      next time hguard =>
        obtain rfl := Option.some.inj hstep
        exact hskip (by simp [hguard]) _ rfl rfl rfl
      next => cases hstep

/-- A select begins. -/
theorem Inv.select_begins (h : Inv net s) {f : Select Chan} (hpc : s.pc p = .idle)
    (hread : f.guards.all (·.readBy net p) = true) :
    Inv net ({ s with
        alt_state := Function.update s.alt_state p .enabling
        selects := Function.update s.selects p (s.selects p + 1)
        scheds := Function.update s.scheds p 0
        waited := Function.update s.waited p false
        fired := Function.update s.fired p false }.goto p (.enable f 0)) := by
  have hch : (s.pc p).channel = none := by rw [hpc]; rfl
  have hp := h.wakes.each p
  have hrole : RoleOk net p (.enable f 0) := by
    refine RoleOk.of_select rfl ?_ (by simp)
    rintro f' l hl
    cases hl
    exact hread
  refine h.alts rfl hch rfl hrole ?_ ⟨rfl, rfl, rfl⟩ (fun _ _ => rfl)
    (fun _ => h.runs p (by simp [hpc, Pc.blocked])) (fun q hq => Function.update_of_ne hq _ _)
    ?_ (fun _ _ => rfl) ?_ h.alting
  · refine h.wakes.moves rfl rfl (by simp [hpc]) (by simp)
      (h.wakes.quiet (by simp [hpc, Pc.stage])) ?_ (fun _ _ _ => rfl) ?_
    · intro q hq
      simp [goto, hq]
    · constructor <;> simp [goto, Pc.stage, Stage.allows]
      · -- a handler that found the process Waiting did so in an earlier select
        intro π x now hx hxp hsel
        have := hp.taken π x now (Or.inr hx) hxp
        omega
      · intro π x now hx hxp
        exact Nat.le_succ_of_le (hp.taken π x now hx hxp)
  · intro c hc
    refine .stays rfl (Or.inr (h.unlisted hch hc ?_))
    rintro ⟨f', k', hg, _⟩
    simp [hpc, Pc.guards] at hg
  · rintro f' l hl - c hc
    cases hl
    exact absurd hc Select.not_active_zero

/-- The process goes from Enabling to Waiting and gives up the processor. -/
theorem Inv.alt_waits (h : Inv net s) {f : Select Chan} (hpc : s.pc p = .shouldWait f)
    (halt : s.alt_state p = .enabling) :
    Inv net ({ s with
        alt_state := Function.update s.alt_state p .waiting
        runnable := Function.update s.runnable p false
        waited := Function.update s.waited p true }.goto p (.altWait f)) := by
  have hg : (s.pc p).guards = some (f, f.size) := by rw [hpc]; rfl
  have hch : (s.pc p).channel = none := by rw [hpc]; rfl
  have hp := h.wakes.each p
  have hrole : RoleOk net p (.altWait f) := by
    refine RoleOk.of_select rfl ?_ (by simp)
    rintro f' l hl
    cases hl
    exact (h.roles p).readBy f f.size hg
  refine h.alts rfl hch rfl hrole ?_ ⟨rfl, rfl, rfl⟩
    (fun q hq => Function.update_of_ne hq _ _) (by simp [Pc.blocked])
    (fun q hq => Function.update_of_ne hq _ _) ?_ (fun _ _ => rfl) ?_ h.alting
  · refine h.wakes.moves rfl rfl (by simp [hpc]) (by simp)
      (h.wakes.quiet (by simp [hpc, Pc.stage])) ?_
      (fun q hq _ => Function.update_of_ne hq _ _) ?_
    · intro q hq
      simp [goto, hq]
    · have hfresh := hp.fresh (by simp [hpc, Pc.stage])
      have hfired := hp.fired
      rw [halt] at hfired
      constructor <;> simp [goto, Pc.stage, Stage.allows, hfresh]
      · simpa using hfired
      · exact hp.taken
  · intro c hc
    refine .stays rfl ?_
    by_cases hl : (s.pc p).Lists c
    · exact Or.inl ⟨f, f.size, rfl, (Pc.lists_iff hg).mp hl⟩
    · exact Or.inr (h.unlisted hch hc hl)
  · rintro f' l hl - c hc
    cases hl
    rcases h.visited p f f.size hg (by simp [hpc, Pc.stage]) c hc with hw | ⟨hw, hcase⟩
    · exact Or.inl hw
    · refine Or.inr ⟨hw, Or.inl ?_⟩
      have hf : s.pc (net.role c .output) = .free c p := by simpa [halt] using hcase
      have hne : net.role c .output ≠ p := by
        intro heq
        simp [heq, hpc] at hf
      exact (Function.update_of_ne hne _ _).trans hf

/-- The process marks itself finished with the alternation. -/
theorem Inv.finishes (h : Inv net s) {f : Select Chan} {sel : Option Nat}
    (hpc : s.pc p = .finish f sel) :
    Inv net ({ s with alt_state := Function.update s.alt_state p .none }.goto p
      (.selected f sel)) := by
  have hch : (s.pc p).channel = none := by rw [hpc]; rfl
  have hp := h.wakes.each p
  refine h.alts rfl hch rfl ?_ ?_ ⟨rfl, rfl, rfl⟩ (fun _ _ => rfl)
    (fun _ => h.runs p (by simp [hpc, Pc.blocked])) (fun q hq => Function.update_of_ne hq _ _)
    ?_ (fun _ _ => rfl) (by simp [Pc.guards]) h.alting
  · exact RoleOk.of_select rfl (by simp [Pc.guards]) (by simp)
  · refine h.wakes.moves rfl rfl (by simp [hpc]) (by simp)
      (h.wakes.quiet (by simp [hpc, Pc.stage])) ?_ (fun _ _ _ => rfl) ?_
    · intro q hq
      simp [goto, hq]
    · constructor <;> simp [goto, Pc.stage, Stage.allows]
      · simpa using hp.count
      · exact hp.taken
  · intro c hc
    refine .stays rfl (Or.inr (h.unlisted hch hc ?_))
    rintro ⟨f', k', hg, hc'⟩
    obtain ⟨rfl, rfl⟩ : f = f' ∧ 0 = k' := by simpa [hpc, Pc.guards] using hg
    exact Select.not_active_zero hc'

/-- The next step of the call that a process is in. -/
theorem Inv.run (h : Inv net s) {pun : Fin N → Fin U} (hstep : s.run pun p = some t) :
    Inv net t := by
  cases hpc : s.pc p with
  | idle => simp [Comm.run, hpc] at hstep
  | call e c =>
      have hask := (h.entering hpc).2
      cases e with
      | input =>
          simp only [Comm.run, hpc, Comm.in] at hstep
          split at hstep
          next w hw =>
            obtain ⟨hptr, -, htaken⟩ := h.takes hpc hw
            rw [hptr] at hstep
            exact Option.some.inj hstep ▸ htaken
          next hnone =>
            exact Option.some.inj hstep ▸ h.registers hpc (Or.inl ⟨rfl, hnone⟩)
      | output =>
          simp only [Comm.run, hpc, Comm.out, Option.some.injEq] at hstep
          subst hstep
          split
          next w hw =>
            split
            next dest hptr => exact (h.gives hpc hw hptr).2
            next hptr =>
              obtain ⟨rfl, ⟨hptr', _⟩ | ⟨_, halt⟩⟩ := (h.meets c).found_reader hask hw
              · exact absurd (hptr.symm.trans hptr') (by simp)
              · exact h.registers hpc (Or.inr ⟨rfl, rfl, halt⟩)
          next hnone => exact h.registers hpc (Or.inl ⟨rfl, hnone⟩)
  | wake e c q =>
      simp only [Comm.run, hpc, Option.some.injEq] at hstep
      subst hstep
      split
      next hst => exact (h.wakes_peer hpc).1 hst
      next hst => exact (h.wakes_peer hpc).2 hst
  | schedule e c q =>
      simp only [Comm.run, hpc, Option.some.injEq] at hstep
      exact hstep ▸ h.schedules_peer hpc
  | free c r =>
      obtain ⟨h1, h2, h3⟩ := h.free hpc
      simp only [Comm.run, hpc, Option.some.injEq] at hstep
      subst hstep
      split
      next he => exact h1 he
      next hw => exact h2 hw
      next he hw => exact h3 he hw
  | freeWaiting c r =>
      obtain ⟨h1, h2⟩ := h.freeWaiting hpc
      simp only [Comm.run, hpc, Option.some.injEq] at hstep
      subst hstep
      split
      next hw => exact h1 hw
      next hw => exact h2 hw
  | freeSchedule c r =>
      simp only [Comm.run, hpc, Option.some.injEq] at hstep
      exact hstep ▸ h.freeSchedule hpc
  | relinquish e c =>
      simp only [Comm.run, hpc, Option.some.injEq] at hstep
      subst hstep
      split
      next hst => exact h.relinquish hpc hst
      next hst => exact h.resume (Or.inl ⟨hpc, hst⟩)
  | wait e c =>
      simp only [Comm.run, hpc] at hstep
      split at hstep
      next hrun => exact Option.some.inj hstep ▸ h.resume (Or.inr ⟨hpc, hrun⟩)
      next => cases hstep
  | enable f k =>
      simp only [Comm.run, hpc, Option.some.injEq] at hstep
      exact hstep ▸ h.enable hpc
  | fill f k time =>
      simp only [Comm.run, hpc, Option.some.injEq] at hstep
      subst hstep
      refine h.queues.1 time hpc _ _ fun d => ?_
      have htype : s.tm.allocate_mem.2.type = s.tm.type := by
        unfold Timers.allocate_mem
        split <;> rfl
      simp only [Timers.fill, htype]
      by_cases hd : d = s.tm.allocate_mem.1
      · rw [hd, Function.update_self]
      · rw [Function.update_of_ne hd]
        exact h.alting d
  | insert f k desc =>
      simp only [Comm.run, hpc] at hstep
      obtain ⟨r, hr, rfl⟩ := Option.map_eq_some_iff.mp hstep
      refine h.queues.2 desc hpc _ fun d => ?_
      rw [insertInQueue_type hr]
      exact h.alting d
  | shouldWait f =>
      simp only [Comm.run, hpc, Option.some.injEq] at hstep
      subst hstep
      split
      next halt => exact h.alt_waits hpc halt
      next => exact h.resumes (Or.inl hpc)
  | altWait f =>
      simp only [Comm.run, hpc] at hstep
      split at hstep
      next hrun => exact Option.some.inj hstep ▸ h.resumes (Or.inr ⟨hpc, hrun⟩)
      next => cases hstep
  | disable f k sel =>
      simp only [Comm.run, hpc] at hstep
      exact h.disable hpc hstep
  | remove f k sel time =>
      simp only [Comm.run, hpc] at hstep
      obtain ⟨r, hr, rfl⟩ := Option.map_eq_some_iff.mp hstep
      have htm : ∀ d, r.1.type d = .alting := by
        intro d
        rw [removeFromQueue_type hr]
        exact h.alting d
      split
      all_goals
        exact h.dequeues (by rw [hpc]; rfl) (by rw [hpc]; rfl) (by rw [hpc]; rfl)
          rfl rfl rfl htm
  | release f k sel desc =>
      simp only [Comm.run, hpc, Option.some.injEq] at hstep
      subst hstep
      exact h.dequeues (by rw [hpc]; rfl) (by rw [hpc]; rfl) (by rw [hpc]; rfl)
        rfl rfl rfl h.alting
  | finish f sel =>
      simp only [Comm.run, hpc, Option.some.injEq] at hstep
      exact hstep ▸ h.finishes hpc
  | selected f sel =>
      simp only [Comm.run, hpc, Option.some.injEq] at hstep
      subst hstep
      refine h.moves (by rw [hpc]; rfl) rfl ?_ (Or.inl ⟨by rw [hpc]; rfl, by simp [Pc.stage]⟩)
        ?_ (by simp [Pc.stage]) h.alting
      · exact RoleOk.of_select rfl (by simp [Pc.guards]) (by simp)
      · rintro c ⟨f', k', hg, _⟩
        simp [hpc, Pc.guards] at hg

/-- The passing of time. -/
theorem Inv.tick (h : Inv net s) (δ : Nat) : Inv net { s with clock := s.clock + δ } := by
  refine h.tells ?_ h.roles (fun _ => ⟨rfl, rfl, rfl, fun _ _ _ _ => rfl⟩)
    ⟨fun _ => rfl, rfl, rfl, rfl⟩ (fun _ => Or.inl rfl) (fun _ _ hv => hv) h.alting
  exact ⟨fun r => (h.wakes.each r).frame rfl rfl rfl rfl rfl rfl (fun _ => rfl)
    (fun _ ha => ha) rfl, h.wakes.pend, h.wakes.unique⟩

/-- Every step keeps the invariant. -/
theorem Inv.step (h : Inv net s) {pun : Fin N → Fin U} {act : CommAct N U Chan Msg}
    (hstep : s.step net pun act = some t) : Inv net t := by
  cases step_cases hstep with
  | «in» hidle => exact h.in_begins hidle
  | @out c msg hidle => exact h.out_begins hidle msg
  | select hidle hguards => exact h.select_begins hidle hguards
  | run hrun => exact h.run hrun
  | @tick δ => exact h.tick δ
  | interrupt hidle => exact h.interrupt hidle
  | handle hhandle => exact h.handle hhandle

end Comm

end Cxp
