import Mathlib.Data.List.Chain

/-!
# A search in two passes, in cyclic order

A search goes over `size` places in order, stops at one that is ready or waits
behind the last one until it is woken, and goes back over the places that it
has looked at.  The last ready one that it comes across, which is the first in
order, is the one it settles on.  Places may become ready at any time, and once
ready stay so.

* `Ordered` is what holds of a search at any moment, and the first place that
  was ready when the search began is never passed over (`Ordered.settled`).
* Where searches of a ring each begin behind the place that the one before has
  settled on, a place ready at the start of each comes nearer (`ahead_lt`), and
  is settled on within one round (`exists_hit`).
-/

namespace OrderedSearch

variable {β : Type*}

/-- Where a search stands: it has looked at the first `k` places, or has `k`
places to go back over and has come across `best`. -/
inductive Phase (β : Type*)
  | looking (k : Nat)
  | settling (k : Nat) (best : Option β)

/-- The number of places looked at, or still to go back over. -/
def Phase.place : Phase β → Nat
  | looking k => k
  | settling k _ => k

/-- One step of a search of `size` places with these names, of which some are
ready now. -/
inductive Step (size : Nat) (name : Nat → β) (ready : Nat → Prop) :
    Phase β → Phase β → Prop
  | rest (x) : Step size name ready x x
  | look {k} : k < size → Step size name ready (.looking k) (.looking (k + 1))
  | found {k l j} : j < l → ready j → Step size name ready (.looking k) (.settling l none)
  | woken : Step size name ready (.looking size) (.settling size none)
  | take {k best} : ready k →
      Step size name ready (.settling (k + 1) best) (.settling k (some (name k)))
  | pass {k best} : ¬ ready k →
      Step size name ready (.settling (k + 1) best) (.settling k best)

section Search

variable {size : Nat} {name : Nat → β} {was now now' missed missed' : Nat → Prop}
  {x y : Phase β}

/-- What holds of a search, where some places were ready when it began, some
are now, and some have been passed over on the way back. -/
def Ordered (name : Nat → β) (was now missed : Nat → Prop) : Phase β → Prop
  | .looking _ => True
  | .settling k none => ∀ j, k ≤ j → was j → ∃ i, i < k ∧ now i
  | .settling k (some b) => ∃ m, k ≤ m ∧ b = name m ∧ now m ∧
      ∀ j, k ≤ j → j < m → missed j ∧ ¬ was j

/-- Other places become ready, or are passed over. -/
theorem Ordered.mono (h : Ordered name was now missed x)
    (hnow : ∀ j, now j → now' j)
    (hmissed : ∀ j, x.place ≤ j → missed j → missed' j) :
    Ordered name was now' missed' x := by
  match x with
  | .looking _ => trivial
  | .settling k none =>
      intro j hj hw
      obtain ⟨i, hi, hn⟩ := h j hj hw
      exact ⟨i, hi, hnow i hn⟩
  | .settling k (some b) =>
      obtain ⟨m, hk, hb, hn, hpassed⟩ := h
      refine ⟨m, hk, hb, hnow m hn, ?_⟩
      intro j hj hjm
      obtain ⟨hm, hw⟩ := hpassed j hj hjm
      exact ⟨hmissed j hj hm, hw⟩

/-- **One step keeps the order.** -/
theorem Ordered.step (h : Ordered name was now missed x)
    (hstep : Step size name now x y) (hwas : ∀ j, was j → now j)
    (hsize : ∀ j, was j → j < size) (hnow : ∀ j, now j → now' j)
    (hmissed : ∀ j, x.place ≤ j → missed j → missed' j)
    (hpass : ∀ k best best', x = .settling (k + 1) best → y = .settling k best' →
      ¬ now k → missed' k) :
    Ordered name was now' missed' y := by
  cases hstep with
  | rest => exact h.mono hnow hmissed
  | look _ => trivial
  | found hj hready =>
      intro _ _ _
      exact ⟨_, hj, hnow _ hready⟩
  | woken =>
      intro j hj hw
      exact absurd (hsize j hw) (Nat.not_lt.mpr hj)
  | @take k best hready =>
      refine ⟨k, le_rfl, rfl, hnow k hready, ?_⟩
      intro j hj hjk
      omega
  | @pass k best hnot =>
      have hk : ¬ was k := fun hw => hnot (hwas k hw)
      cases best with
      | none =>
          intro j hj hw
          have hjk : k + 1 ≤ j := by
            by_contra hlt
            obtain rfl : j = k := by omega
            exact hk hw
          obtain ⟨i, hi, hn⟩ := h j hjk hw
          have hik : i ≠ k := by
            intro heq
            exact hnot (heq ▸ hn)
          exact ⟨i, by omega, hnow i hn⟩
      | some b =>
          obtain ⟨m, hkm, hb, hn, hpassed⟩ := h
          refine ⟨m, by omega, hb, hnow m hn, ?_⟩
          intro j hj hjm
          by_cases hjk : j = k
          · subst hjk
            exact ⟨hpass j _ _ rfl rfl hnot, hk⟩
          · obtain ⟨hm, hw⟩ := hpassed j (by omega) hjm
            have hj' : k + 1 ≤ j := by omega
            exact ⟨hmissed j hj' hm, hw⟩

/-- A search that has come back settles on a place not behind the first one
that was ready when it began. -/
theorem Ordered.settled {best : Option β}
    (h : Ordered name was now missed (.settling 0 best)) {q : Nat} (hq : was q) :
    ∃ m, m ≤ q ∧ best = some (name m) := by
  cases best with
  | none =>
      obtain ⟨i, hi, _⟩ := h q (Nat.zero_le q) hq
      omega
  | some b =>
      obtain ⟨m, _, hb, _, hpassed⟩ := h
      refine ⟨m, ?_, by rw [hb]⟩
      by_contra hlt
      exact (hpassed q (Nat.zero_le q) (by omega)).2 hq

end Search

section Ring

/-- How far place `i` of a ring of `n` lies ahead of place `a`. -/
def ahead (n a i : Nat) : Nat := (i + (n - a)) % n

variable {n a b i m : Nat}

theorem ahead_lt_size (hn : 0 < n) : ahead n a i < n := Nat.mod_lt _ hn

theorem add_ahead (ha : a < n) (hi : i < n) : (a + ahead n a i) % n = i := by
  have hsum : a + (i + (n - a)) = i + n := by omega
  rw [ahead, Nat.add_mod_mod, hsum, Nat.add_mod_right, Nat.mod_eq_of_lt hi]

/-- **Nearer.**  Behind a place that is nearer than `i`, `i` lies nearer. -/
theorem ahead_lt (ha : a < n) (hi : i < n) (hm : m < ahead n a i)
    (hb : b = ((a + m) % n + 1) % n) : ahead n b i < ahead n a i := by
  have hd : ahead n a i < n := ahead_lt_size (by omega)
  have hplace := add_ahead ha hi
  have hb' : b = (a + m + 1) % n := by rw [hb, Nat.mod_add_mod]
  have hbn : b < n := by
    rw [hb']
    exact Nat.mod_lt _ (by omega)
  -- both sums stay below `2 n`
  have hcase : ∀ c, c < 2 * n → c < n ∧ c % n = c ∨ n ≤ c ∧ c % n = c - n := by
    intro c hc
    by_cases hlt : c < n
    · exact Or.inl ⟨hlt, Nat.mod_eq_of_lt hlt⟩
    · right
      rw [Nat.mod_eq_sub_mod (by omega)]
      exact ⟨by omega, Nat.mod_eq_of_lt (by omega)⟩
  have h1 := hcase (a + ahead n a i) (by omega)
  have h2 := hcase (a + m + 1) (by omega)
  have h3 := hcase (i + (n - b)) (by omega)
  rw [hplace] at h1
  rw [← hb'] at h2
  rw [← ahead] at h3
  omega

variable {α : Type*} {start left : α → Nat} {hit : α → Prop} {w : List α} {d : Nat → Nat}

/-- **Within one round.**  Searches of which each begins where the one before
has left off, and each that misses leaves off nearer, hit as soon as there are
more of them than the first has to go. -/
theorem exists_hit (hchain : w.IsChain fun e e' => start e' = left e)
    (hnearer : ∀ e ∈ w, ¬ hit e → d (left e) < d (start e))
    (hne : w ≠ []) (hhead : ∀ e ∈ w.head?, d (start e) < w.length) :
    ∃ e ∈ w, hit e := by
  induction w with
  | nil => exact absurd rfl hne
  | cons e es ih =>
      by_cases hit_e : hit e
      · exact ⟨e, List.mem_cons_self .., hit_e⟩
      have hlt := hnearer e (List.mem_cons_self ..) hit_e
      have hfar := hhead e (by simp)
      rw [List.length_cons] at hfar
      cases es with
      | nil =>
          rw [List.length_nil] at hfar
          omega
      | cons e' es =>
          rw [List.isChain_cons_cons] at hchain
          obtain ⟨hstart, hchain⟩ := hchain
          have hnear : ∀ x ∈ (e' :: es).head?, d (start x) < (e' :: es).length := by
            intro x hx
            obtain rfl : e' = x := by simpa using hx
            rw [hstart]
            omega
          obtain ⟨x, hx, hhit⟩ := ih hchain
            (fun x hx => hnearer x (List.mem_cons_of_mem _ hx)) (by simp) hnear
          exact ⟨x, List.mem_cons_of_mem _ hx, hhit⟩

end Ring

end OrderedSearch
