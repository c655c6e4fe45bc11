import Cxp.ReadyQueue

/-!
# What a processor does to the queues (`sched.c`)

`Turn` lists everything that the functions of the scheduler do, on a processor
`π` with the current process `c`, to the current process and to the queues.  What
the claims on the order of execution need follows from it, turn by turn:

* the queues of the other processors keep their linked records (`Turn.others`);
* a processor's processes are its own (`Turn.pun_current`, `Turn.chained`);
* nobody of higher priority than the current process is linked (`Turn.outranks`);
* who was current or linked is one of the two (`Turn.seated`).
-/

namespace Cxp

namespace Queues

variable {N U : Nat}

/-- Nobody linked is of higher priority than `c`. -/
def Outranks (sys : Procs N U) (q : Queues N U) (π : Fin U) (c : Fin N) : Prop :=
  ∀ x ∈ q.links π, pri_le (sys.pri x) (sys.pri c) = true

/-- From the current process `c` and the queues `q` of processor `π` to `c'` and
`q'`.  `B` holds of whoever is put into a queue or preempts another.  `R` says
that the processor is in a handler that readies processes and is still to look
who is first, before the turn and after; `Y` that the process yields. -/
inductive Turn (sys : Procs N U) (B : Fin N → Prop) (R R' Y : Prop) (π : Fin U) :
    Fin N → Queues N U → Fin N → Queues N U → Prop
  /-- nothing -/
  | stays {c : Fin N} {q : Queues N U} (hr : R → R' ∨ Outranks sys q π c) :
      Turn sys B R R' Y π c q c q
  /-- a process is put into the ready queue -/
  | joins {c proc : Fin N} {q q' : Queues N U} (hb : B proc) (hpun : sys.pun proc = π)
      (hq : q.enqueue0 sys proc = some q')
      (hr : R' ∨ ¬R ∧ pri_le (sys.pri proc) (sys.pri c) = true) :
      Turn sys B R R' Y π c q c q'
  /-- a process is put into the interprocessor queue of its processor -/
  | tells {c proc : Fin N} {q q' : Queues N U} (hb : B proc) (hpun : sys.pun proc ≠ π)
      (hq : q.ipq_add (sys.pun proc) proc = some q') (hr : ¬R) :
      Turn sys B R R' Y π c q c q'
  /-- a process of higher priority preempts the current one -/
  | preempts {c proc : Fin N} {q q' : Queues N U} (hb : B proc) (hpun : sys.pun proc = π)
      (hgt : pri_le (sys.pri proc) (sys.pri c) = false)
      (hq : q.enqueue0 sys c = some q') (hr : ¬R) :
      Turn sys B R R' Y π c q proc q'
  /-- the next entry of the interprocessor queue is dealt with -/
  | draws {c proc c' : Fin N} {q q₁ q' : Queues N U} (hrem : q.ipq_remove π = some (proc, q₁))
      (hy : ¬Y) (h : Turn sys B R R' Y π c q₁ c' q') : Turn sys B R R' Y π c q c' q'
  /-- the current process, not the idle one, waits or ends, and the first one gets
  the processor -/
  | dispatches {c new : Fin N} {q q' : Queues N U} (hc : sys.idler π ≠ c)
      (htake : q.take sys π = some (new, q')) :
      Turn sys B R R' Y π c q new q'
  /-- the first one, being of higher priority, preempts the current one -/
  | rotates {c new : Fin N} {q q₁ q' : Queues N U}
      (hout : ∃ x ∈ q.links π, pri_gt (sys.pri x) (sys.pri c) = true)
      (htake : q.take sys π = some (new, q₁)) (hq : q₁.enqueue0 sys c = some q') :
      Turn sys B R R' Y π c q new q'
  /-- the current process yields to the first one -/
  | yields {c new : Fin N} {q q₁ q' : Queues N U} (hy : Y)
      (htake : q.take1 sys π = some (some new, q₁)) (hq : q₁.enqueue0 sys c = some q') :
      Turn sys B R R' Y π c q new q'
  /-- the current process finds nobody to yield to -/
  | remains {c : Fin N} {q q' : Queues N U} (hy : Y)
      (htake : q.take1 sys π = some (none, q')) :
      Turn sys B R R' Y π c q c q'

variable {sys : Procs N U} {B : Fin N → Prop} {R R' Y : Prop} {π σ : Fin U} {c c' x : Fin N}
  {q q' : Queues N U}

section Enqueues

variable {proc : Fin N}

/-- What `enqueue0` does, the result being known. -/
theorem Chained.enqueued (h : Chained sys q) (hq : q.enqueue0 sys proc = some q') :
    Chained sys q' ∧ q'.ipq = q.ipq ∧
      q'.links (sys.pun proc) = placed sys (q.links (sys.pun proc)) proc ∧
      ∀ σ, σ ≠ sys.pun proc → q'.links σ = q.links σ := by
  obtain ⟨q₁, hq₁, hchained, hipq, hself, hothers, -⟩ := h.enqueue0 proc
  obtain rfl := Option.some.inj (hq₁.symm.trans hq)
  exact ⟨hchained, hipq, hself, hothers⟩

/-- Whoever is linked afterwards was so before, or is the process. -/
theorem Chained.mem_enqueued (h : Chained sys q) (hq : q.enqueue0 sys proc = some q')
    (hx : x ∈ q'.links σ) : x ∈ q.links σ ∨ x = proc ∧ sys.pun proc = σ := by
  obtain ⟨-, -, hself, hothers⟩ := h.enqueued hq
  by_cases hσ : σ = sys.pun proc
  · subst hσ
    rw [hself] at hx
    rcases mem_placed hx with hx | hx
    · exact Or.inl hx
    · exact Or.inr ⟨hx, rfl⟩
  · rw [hothers σ hσ] at hx
    exact Or.inl hx

theorem Chained.at_enqueued (h : Chained sys q) (hq : q.enqueue0 sys proc = some q')
    (hx : q'.At σ x) : q.At σ x ∨ x = proc ∧ sys.pun proc = σ := by
  rcases hx with hx | hx
  · exact (h.mem_enqueued hq hx).imp_left Or.inl
  · rw [(h.enqueued hq).2.1] at hx
    exact Or.inl (Or.inr hx)

theorem Chained.at_added (h : Chained sys q) (hq : q.ipq_add (sys.pun proc) proc = some q')
    (hx : q'.At σ x) : q.At σ x ∨ x = proc ∧ sys.pun proc = σ := by
  obtain ⟨-, -, hlinks, hipq⟩ := h.ipq_add hq
  unfold At at hx
  rw [hlinks, hipq] at hx
  rcases hx with hx | hx
  · exact Or.inl (Or.inl hx)
  · by_cases hσ : σ = sys.pun proc
    · subst hσ
      rw [Function.update_self, List.mem_append, List.mem_singleton] at hx
      exact hx.imp Or.inr fun hx => ⟨hx, rfl⟩
    · rw [Function.update_of_ne hσ] at hx
      exact Or.inl (Or.inr hx)

theorem Chained.at_removed (h : Chained sys q) (hq : q.ipq_remove π = some (proc, q')) :
    q.At π proc ∧ ∀ σ x, q'.At σ x → q.At σ x := by
  obtain ⟨-, -, hlinks, -, rest, hipq, hipq'⟩ := h.ipq_remove hq
  refine ⟨Or.inr (hipq ▸ List.mem_cons_self), fun σ x hx => ?_⟩
  unfold At at hx ⊢
  rw [hlinks, hipq'] at hx
  refine hx.imp_right fun hx => ?_
  by_cases hσ : σ = π
  · subst hσ
    rw [Function.update_self] at hx
    exact hipq ▸ List.mem_cons_of_mem _ hx
  · rwa [Function.update_of_ne hσ] at hx

/-- A process joins those that another one outranks. -/
theorem Outranks.joined (h : Outranks sys q π c) (hc : Chained sys q)
    (hq : q.enqueue0 sys proc = some q') (hle : pri_le (sys.pri proc) (sys.pri c) = true) :
    Outranks sys q' π c := by
  intro x hx
  rcases hc.mem_enqueued hq hx with hx | ⟨rfl, -⟩
  · exact h x hx
  · exact hle

end Enqueues

section Takes

variable {new : Fin N}

/-- Whoever is queued after a `take`, or taken, was queued. -/
theorem Taken.at (h : Taken sys π q new q') (hx : x = new ∧ σ = π ∨ q'.At σ x) : q.At σ x := by
  by_cases hσ : σ = π
  · subst hσ
    rcases hx with ⟨hx, -⟩ | hx | hx
    · exact h.came x (Or.inl hx)
    · exact h.came x (Or.inr hx)
    · rw [h.ipq] at hx
      cases hx
  · rcases hx with ⟨-, hx⟩ | hx
    · exact absurd hx hσ
    · unfold At at hx ⊢
      rwa [(h.others σ hσ).1, (h.others σ hσ).2] at hx

theorem Merged.at (h : Merged sys π q q') (hx : q'.At σ x) : q.At σ x := by
  by_cases hσ : σ = π
  · subst hσ
    rcases hx with hx | hx
    · exact h.came x hx
    · rw [h.ipq] at hx
      cases hx
  · unfold At at hx ⊢
    rwa [(h.others σ hσ).1, (h.others σ hσ).2] at hx

theorem Taken.outranks (h : Taken sys π q new q') : Outranks sys q' π new :=
  fun x hx => (h.first x hx).2

/-- `take1` that gives somebody. -/
theorem Chained.take1_some (h : Chained sys q) (htake : q.take1 sys π = some (some new, q')) :
    Taken sys π q new q' ∧ q'.links π ≠ [] :=
  h.take1 htake

theorem Chained.take1_none (h : Chained sys q) (htake : q.take1 sys π = some (none, q')) :
    Merged sys π q q' ∧ (q'.links π).length ≤ 1 :=
  h.take1 htake

end Takes

section Turns

theorem Turn.mono {B' : Fin N → Prop} (h : Turn sys B R R' Y π c q c' q')
    (hB : ∀ x, B x → B' x) : Turn sys B' R R' Y π c q c' q' := by
  induction h with
  | stays hr => exact .stays hr
  | joins hb hpun hq hr => exact .joins (hB _ hb) hpun hq hr
  | tells hb hpun hq hr => exact .tells (hB _ hb) hpun hq hr
  | preempts hb hpun hgt hq hr => exact .preempts (hB _ hb) hpun hgt hq hr
  | draws hrem hy _ ih => exact .draws hrem hy ih
  | dispatches hne htake => exact .dispatches hne htake
  | rotates hout htake hq => exact .rotates hout htake hq
  | yields hy htake hq => exact .yields hy htake hq
  | remains hy htake => exact .remains hy htake

theorem Turn.chained (h : Turn sys B R R' Y π c q c' q') (hc : Chained sys q) : Chained sys q' := by
  induction h with
  | stays => exact hc
  | joins _ _ hq => exact (hc.enqueued hq).1
  | tells _ _ hq => exact (hc.ipq_add hq).1
  | preempts _ _ _ hq => exact (hc.enqueued hq).1
  | draws hrem _ _ ih => exact ih (hc.ipq_remove hrem).1
  | dispatches _ htake => exact (hc.take htake).chained
  | rotates _ htake hq => exact ((hc.take htake).chained.enqueued hq).1
  | yields _ htake hq => exact ((hc.take1_some htake).1.chained.enqueued hq).1
  | remains _ htake => exact (hc.take1_none htake).1.chained

/-- The current process belongs to its processor. -/
theorem Turn.pun_current (h : Turn sys B R R' Y π c q c' q') (hc : Chained sys q)
    (hpun : sys.pun c = π) : sys.pun c' = π := by
  induction h with
  | stays => exact hpun
  | joins => exact hpun
  | tells => exact hpun
  | preempts _ hproc => exact hproc
  | draws hrem _ _ ih => exact ih (hc.ipq_remove hrem).1
  | dispatches _ htake => exact (hc.take htake).pun
  | rotates _ htake => exact (hc.take htake).pun
  | yields _ htake => exact (hc.take1_some htake).1.pun
  | remains => exact hpun

/-- Who is current or queued afterwards was so before, or is put there. -/
theorem Turn.known (h : Turn sys B R R' Y π c q c' q') (hc : Chained sys q) (hcur : B c)
    (hat : ∀ σ x, q.At σ x → B x) : B c' ∧ ∀ σ x, q'.At σ x → B x := by
  induction h with
  | stays => exact ⟨hcur, hat⟩
  | joins hb _ hq =>
      refine ⟨hcur, fun σ x hx => ?_⟩
      rcases hc.at_enqueued hq hx with hx | ⟨rfl, -⟩
      · exact hat σ x hx
      · exact hb
  | tells hb _ hq =>
      refine ⟨hcur, fun σ x hx => ?_⟩
      rcases hc.at_added hq hx with hx | ⟨rfl, -⟩
      · exact hat σ x hx
      · exact hb
  | preempts hb _ _ hq =>
      refine ⟨hb, fun σ x hx => ?_⟩
      rcases hc.at_enqueued hq hx with hx | ⟨rfl, -⟩
      · exact hat σ x hx
      · exact hcur
  | draws hrem _ _ ih =>
      exact ih (hc.ipq_remove hrem).1 fun σ x hx => hat σ x ((hc.at_removed hrem).2 σ x hx)
  | dispatches _ htake =>
      have ht := hc.take htake
      exact ⟨hat π _ (ht.at (Or.inl ⟨rfl, rfl⟩)), fun σ x hx => hat σ x (ht.at (Or.inr hx))⟩
  | rotates _ htake hq =>
      have ht := hc.take htake
      refine ⟨hat π _ (ht.at (Or.inl ⟨rfl, rfl⟩)), fun σ x hx => ?_⟩
      rcases ht.chained.at_enqueued hq hx with hx | ⟨rfl, -⟩
      · exact hat σ x (ht.at (Or.inr hx))
      · exact hcur
  | yields _ htake hq =>
      have ht := (hc.take1_some htake).1
      refine ⟨hat π _ (ht.at (Or.inl ⟨rfl, rfl⟩)), fun σ x hx => ?_⟩
      rcases ht.chained.at_enqueued hq hx with hx | ⟨rfl, -⟩
      · exact hat σ x (ht.at (Or.inr hx))
      · exact hcur
  | remains _ htake =>
      exact ⟨hcur, fun σ x hx => hat σ x ((hc.take1_none htake).1.at hx)⟩

/-- **Affinity.**  The ready queues of the other processors are left alone; their
interprocessor queues lose nobody. -/
theorem Turn.others (h : Turn sys B R R' Y π c q c' q') (hc : Chained sys q)
    (hpun : sys.pun c = π) (hσ : σ ≠ π) :
    q'.links σ = q.links σ ∧ ∀ x ∈ q.ipq σ, x ∈ q'.ipq σ := by
  induction h with
  | stays => exact ⟨rfl, fun _ hx => hx⟩
  | joins _ hproc hq =>
      obtain ⟨-, hipq, -, hothers⟩ := hc.enqueued hq
      exact ⟨hothers σ (hproc ▸ hσ), fun x hx => hipq ▸ hx⟩
  | @tells proc q q' _ _ hq =>
      obtain ⟨-, -, hlinks, hipq⟩ := hc.ipq_add hq
      refine ⟨by rw [hlinks], fun x hx => ?_⟩
      rw [hipq]
      by_cases hproc : σ = sys.pun proc
      · subst hproc
        rw [Function.update_self]
        exact List.mem_append_left _ hx
      · rwa [Function.update_of_ne hproc]
  | preempts _ _ _ hq =>
      obtain ⟨-, hipq, -, hothers⟩ := hc.enqueued hq
      exact ⟨hothers σ (hpun ▸ hσ), fun x hx => hipq ▸ hx⟩
  | draws hrem _ _ ih =>
      obtain ⟨hc₁, -, hlinks, -, rest, -, hipq'⟩ := hc.ipq_remove hrem
      obtain ⟨hl, hi⟩ := ih hc₁
      refine ⟨hl.trans (by rw [hlinks]), fun x hx => hi x ?_⟩
      rwa [hipq', Function.update_of_ne hσ]
  | dispatches _ htake =>
      obtain ⟨hl, hi⟩ := (hc.take htake).others σ hσ
      exact ⟨hl, fun x hx => hi ▸ hx⟩
  | rotates _ htake hq =>
      have ht := hc.take htake
      obtain ⟨hl, hi⟩ := ht.others σ hσ
      obtain ⟨-, hipq, -, hothers⟩ := ht.chained.enqueued hq
      exact ⟨(hothers σ (hpun ▸ hσ)).trans hl, fun x hx => hipq ▸ hi ▸ hx⟩
  | yields _ htake hq =>
      have ht := (hc.take1_some htake).1
      obtain ⟨hl, hi⟩ := ht.others σ hσ
      obtain ⟨-, hipq, -, hothers⟩ := ht.chained.enqueued hq
      exact ⟨(hothers σ (hpun ▸ hσ)).trans hl, fun x hx => hipq ▸ hi ▸ hx⟩
  | remains _ htake =>
      obtain ⟨hl, hi⟩ := (hc.take1_none htake).1.others σ hσ
      exact ⟨hl, fun x hx => hi ▸ hx⟩

/-- **Order.**  A turn that is no yield leaves the current process outranking
everyone linked, or the processor still to look. -/
theorem Turn.outranks (h : Turn sys B R R' Y π c q c' q') (hc : Chained sys q)
    {D : Fin N → Prop} (hD : ∀ a b, D a → pri_le (sys.pri a) (sys.pri b) = false → D b)
    (hyields : Y → ¬D c ∧ ∀ new q₁, q.take1 sys π = some (some new, q₁) → ¬D new)
    (hold : D c → Outranks sys q π c ∨ R) (hnew : D c') : Outranks sys q' π c' ∨ R' := by
  induction h with
  | stays hr =>
      rcases hold hnew with hold | hold
      · exact Or.inl hold
      · exact (hr hold).symm
  | joins _ _ hq hr =>
      rcases hr with hr | ⟨hr, hle⟩
      · exact Or.inr hr
      · exact Or.inl (((hold hnew).resolve_right hr).joined hc hq hle)
  | tells _ _ hq hr =>
      left
      unfold Outranks
      rw [(hc.ipq_add hq).2.2.1]
      exact (hold hnew).resolve_right hr
  | preempts _ _ hgt hq hr =>
      left
      intro x hx
      have hout := (hold (hD _ _ hnew hgt)).resolve_right hr
      simp only [pri_le, ge_iff_le, decide_eq_false_iff_not, not_le] at hgt
      rcases hc.mem_enqueued hq hx with hx | ⟨rfl, -⟩
      · have hle := hout x hx
        simp only [pri_le, ge_iff_le, decide_eq_true_eq] at hle ⊢
        omega
      · simp only [pri_le, ge_iff_le, decide_eq_true_eq]
        omega
  | draws hrem hne _ ih =>
      obtain ⟨hc₁, -, hlinks, -⟩ := hc.ipq_remove hrem
      refine ih hc₁ (fun hY => absurd hY hne) (fun hd => ?_) hnew
      unfold Outranks
      rw [hlinks]
      exact hold hd
  | dispatches _ htake => exact Or.inl (hc.take htake).outranks
  | rotates hout htake hq =>
      left
      have ht := hc.take htake
      obtain ⟨x, hx, hgt⟩ := hout
      refine ht.outranks.joined ht.chained hq ?_
      have hle := ht.above x (Or.inl hx)
      simp only [pri_le, pri_gt, ge_iff_le, decide_eq_true_eq] at hle hgt ⊢
      omega
  | yields hy htake => exact absurd hnew ((hyields hy).2 _ _ htake)
  | remains hy => exact absurd hnew (hyields hy).1

/-- Whoever has displaced somebody before has. -/
theorem Turn.kept (h : Turn sys B R R' Y π c q c' q') (hc : Chained sys q)
    (hk : q'.kept = true) : q.kept = true := by
  induction h with
  | stays => exact hk
  | joins _ _ hq => exact (enqueue0_keeps hq hk).1
  | tells _ _ hq => exact (hc.ipq_add hq).2.1 ▸ hk
  | preempts _ _ _ hq => exact (enqueue0_keeps hq hk).1
  | draws hrem _ _ ih =>
      obtain ⟨hc₁, hkept, -⟩ := hc.ipq_remove hrem
      exact hkept ▸ ih hc₁ hk
  | dispatches _ htake => exact ((hc.take htake).keeps hk).1
  | rotates _ htake hq => exact ((hc.take htake).keeps (enqueue0_keeps hq hk).1).1
  | yields _ htake hq => exact ((hc.take1_some htake).1.keeps (enqueue0_keeps hq hk).1).1
  | remains _ htake => exact ((hc.take1_none htake).1.keeps hk).1

/-- **Idling.**  As long as nobody is displaced, the idle process stays current or
linked. -/
theorem Turn.seated (h : Turn sys B R R' Y π c q c' q') (hc : Chained sys q)
    (hpun : sys.pun c = π) (hk : q'.kept = true)
    (hx : sys.idler π = c ∨ sys.idler π ∈ q.links π) :
    sys.idler π = c' ∨ sys.idler π ∈ q'.links π := by
  induction h with
  | stays => exact hx
  | joins _ _ hq => exact hx.imp_right ((enqueue0_keeps hq hk).2.2 π _)
  | tells _ _ hq => exact hx.imp_right fun hx => (hc.ipq_add hq).2.2.1 ▸ hx
  | preempts _ _ _ hq =>
      obtain ⟨-, hself, hall⟩ := enqueue0_keeps hq hk
      right
      rcases hx with hx | hx
      · exact hx ▸ hpun ▸ hself
      · exact hall π _ hx
  | draws hrem _ _ ih =>
      obtain ⟨hc₁, -, hlinks, -⟩ := hc.ipq_remove hrem
      exact ih hc₁ hk (hx.imp_right fun hx => hlinks ▸ hx)
  | dispatches hne htake =>
      exact ((hc.take htake).keeps hk).2 _ (Or.inl (hx.resolve_left hne))
  | rotates _ htake hq =>
      obtain ⟨hk₁, hself, hall⟩ := enqueue0_keeps hq hk
      rcases hx with hx | hx
      · exact Or.inr (hx ▸ hpun ▸ hself)
      · exact (((hc.take htake).keeps hk₁).2 _ (Or.inl hx)).imp_right (hall π _)
  | yields _ htake hq =>
      obtain ⟨hk₁, hself, hall⟩ := enqueue0_keeps hq hk
      rcases hx with hx | hx
      · exact Or.inr (hx ▸ hpun ▸ hself)
      · exact (((hc.take1_some htake).1.keeps hk₁).2 _ (Or.inl hx)).imp_right (hall π _)
  | remains _ htake =>
      exact hx.imp_right fun hx => ((hc.take1_none htake).1.keeps hk).2 _ (Or.inl hx)

end Turns

end Queues

end Cxp
