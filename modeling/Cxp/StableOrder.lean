import Mathlib.Data.List.Induction
import Mathlib.Data.List.TakeWhile
import Mathlib.Order.Lattice

/-!
# Stable order

A list that is kept in the order of a key, where a newcomer goes behind those
of equal key, is its arrivals stably sorted.  Of each key it holds the arrivals
of that key as they came, and together with the order this determines it
(`eq_of_ofKey`).  So whatever commutes with the choice of the elements of one
key (taking the first away, keeping only some) commutes with the arrangement.
-/

namespace StableOrder

variable {α κ : Type*} [LinearOrder κ] (key : α → κ)

/-- Put `x` behind the elements in front that are not beyond its key. -/
def place (l : List α) (x : α) : List α :=
  l.takeWhile (fun y => key y ≤ key x) ++ x :: l.dropWhile (fun y => key y ≤ key x)

/-- The list of the arrivals, each put in its place. -/
def arrange (arrivals : List α) : List α :=
  arrivals.foldl (place key) []

/-- The list is in the order of the key. -/
def InOrder (l : List α) : Prop :=
  l.Pairwise fun x y => key x ≤ key y

/-- The elements of a key. -/
def ofKey (l : List α) (k : κ) : List α :=
  l.filter fun y => key y = k

variable {key} {l m a : List α} {x y : α} {k : κ}

section Keys

theorem ofKey_append : ofKey key (l ++ m) k = ofKey key l k ++ ofKey key m k :=
  List.filter_append ..

theorem ofKey_cons_self (h : key x = k) : ofKey key (x :: l) k = x :: ofKey key l k := by
  simp [ofKey, h]

theorem ofKey_cons_of_ne (h : key x ≠ k) : ofKey key (x :: l) k = ofKey key l k := by
  simp [ofKey, h]

theorem mem_ofKey : x ∈ ofKey key l k ↔ x ∈ l ∧ key x = k := by
  simp [ofKey]

theorem ofKey_eq_nil (h : ∀ y ∈ l, key y ≠ k) : ofKey key l k = [] := by
  apply List.eq_nil_iff_forall_not_mem.mpr
  intro y hy
  obtain ⟨hmem, hkey⟩ := mem_ofKey.mp hy
  exact h y hmem hkey

theorem mem_of_ofKey (h : ∀ k, ofKey key l k = ofKey key m k) (hx : x ∈ l) : x ∈ m := by
  have hmem : x ∈ ofKey key l (key x) := mem_ofKey.mpr ⟨hx, rfl⟩
  rw [h] at hmem
  exact (mem_ofKey.mp hmem).1

/-- **Uniqueness.**  Two lists in order that hold the same elements of each key in
the same order are equal. -/
theorem eq_of_ofKey (hl : InOrder key l) (hm : InOrder key m)
    (h : ∀ k, ofKey key l k = ofKey key m k) : l = m := by
  induction l generalizing m with
  | nil =>
      symm
      apply List.eq_nil_iff_forall_not_mem.mpr
      intro x hx
      cases mem_of_ofKey (fun k => (h k).symm) hx
  | cons a as ih =>
      cases m with
      | nil => cases mem_of_ofKey h List.mem_cons_self
      | cons b bs =>
          obtain ⟨ha, has⟩ := List.pairwise_cons.mp hl
          obtain ⟨hb, hbs⟩ := List.pairwise_cons.mp hm
          have hba : key b ≤ key a := by
            obtain heq | hmem := List.mem_cons.mp (mem_of_ofKey h List.mem_cons_self)
            · rw [heq]
            · exact hb a hmem
          have hab : key a ≤ key b := by
            have hmem : b ∈ a :: as := mem_of_ofKey (fun k => (h k).symm) List.mem_cons_self
            obtain heq | hmem := List.mem_cons.mp hmem
            · rw [heq]
            · exact ha b hmem
          have hkey : key a = key b := le_antisymm hab hba
          have hhead := h (key a)
          rw [ofKey_cons_self rfl, ofKey_cons_self hkey.symm] at hhead
          obtain ⟨heq, hrest⟩ := List.cons.inj hhead
          rw [heq, ih has hbs]
          intro k
          by_cases hk : key a = k
          · rw [← hk]
            exact hrest
          · have htail := h k
            rw [ofKey_cons_of_ne hk, ofKey_cons_of_ne (hkey ▸ hk)] at htail
            exact htail

end Keys

section Placing

theorem place_perm : (place key l x).Perm (x :: l) := by
  have hsplit : l.takeWhile (fun y => key y ≤ key x) ++
      l.dropWhile (fun y => key y ≤ key x) = l := List.takeWhile_append_dropWhile
  unfold place
  refine List.perm_middle.trans ?_
  rw [hsplit]

/-- What is left behind the place of `x` is beyond its key. -/
theorem InOrder.lt_of_mem_dropWhile (h : InOrder key l)
    (hy : y ∈ l.dropWhile (fun y => key y ≤ key x)) : key x < key y := by
  induction l with
  | nil => cases hy
  | cons a as ih =>
      obtain ⟨ha, has⟩ := List.pairwise_cons.mp h
      by_cases hle : key a ≤ key x
      · rw [List.dropWhile_cons_of_pos (by simpa using hle)] at hy
        exact ih has hy
      · rw [List.dropWhile_cons_of_neg (by simpa using hle)] at hy
        have hlt : key x < key a := not_le.mp hle
        obtain rfl | hmem := List.mem_cons.mp hy
        · exact hlt
        · exact hlt.trans_le (ha y hmem)

/-- The newcomer is the last one of its key. -/
theorem InOrder.ofKey_place (h : InOrder key l) :
    ofKey key (place key l x) k = ofKey key (l ++ [x]) k := by
  have hsplit : l.takeWhile (fun y => key y ≤ key x) ++
      l.dropWhile (fun y => key y ≤ key x) = l := List.takeWhile_append_dropWhile
  have hl : ofKey key l k = ofKey key (l.takeWhile fun y => key y ≤ key x) k ++
      ofKey key (l.dropWhile fun y => key y ≤ key x) k := by
    rw [← ofKey_append, hsplit]
  rw [place, ofKey_append, ofKey_append, hl]
  by_cases hk : key x = k
  · have hnone : ofKey key (l.dropWhile fun y => key y ≤ key x) k = [] := by
      apply ofKey_eq_nil
      intro y hy heq
      have hlt := h.lt_of_mem_dropWhile hy
      rw [heq, hk] at hlt
      exact lt_irrefl k hlt
    rw [ofKey_cons_self hk, hnone, List.append_nil, ofKey_cons_self hk]
    rfl
  · rw [ofKey_cons_of_ne hk, ofKey_cons_of_ne hk]
    simp [ofKey]

theorem InOrder.place (h : InOrder key l) (x : α) : InOrder key (place key l x) := by
  have hsplit : l.takeWhile (fun y => key y ≤ key x) ++
      l.dropWhile (fun y => key y ≤ key x) = l := List.takeWhile_append_dropWhile
  have hl : InOrder key (l.takeWhile (fun y => key y ≤ key x) ++
      l.dropWhile fun y => key y ≤ key x) := hsplit.symm ▸ h
  obtain ⟨hbefore, hbehind, hcross⟩ := List.pairwise_append.mp hl
  apply List.pairwise_append.mpr
  refine ⟨hbefore, ?_, ?_⟩
  · apply List.pairwise_cons.mpr
    exact ⟨fun y hy => (h.lt_of_mem_dropWhile hy).le, hbehind⟩
  · intro y hy z hz
    obtain rfl | hz := List.mem_cons.mp hz
    · simpa using List.mem_takeWhile_imp hy
    · exact hcross y hy z hz

/-- Among elements that it goes behind and elements that it goes in front of. -/
theorem place_between (hl : ∀ y ∈ l, key y ≤ key x) (hm : ∀ y ∈ m, key x < key y) :
    place key (l ++ m) x = l ++ x :: m := by
  have hpos : ∀ y ∈ l, decide (key y ≤ key x) = true := fun y hy => decide_eq_true (hl y hy)
  have hneg : m.takeWhile (fun y => key y ≤ key x) = [] ∧
      m.dropWhile (fun y => key y ≤ key x) = m := by
    cases m with
    | nil => exact ⟨rfl, rfl⟩
    | cons b bs =>
        have hb : ¬ key b ≤ key x := not_le.mpr (hm b List.mem_cons_self)
        constructor
        · rw [List.takeWhile_cons_of_neg (by simpa using hb)]
        · rw [List.dropWhile_cons_of_neg (by simpa using hb)]
  unfold place
  rw [List.takeWhile_append_of_pos hpos, List.dropWhile_append_of_pos hpos, hneg.1, hneg.2,
    List.append_nil]

theorem place_map {β : Type*} (f : β → α) (l : List β) (x : β) :
    place key (l.map f) (f x) = (place (fun y => key (f y)) l x).map f := by
  simp only [place, List.takeWhile_map, List.dropWhile_map, List.map_append, List.map_cons]
  rfl

/-- In front of what is beyond a key there is what is not. -/
theorem InOrder.takeWhile_le (h : InOrder key l) (k : κ) :
    l.takeWhile (fun y => key y ≤ k) = l.filter (fun y => key y ≤ k) ∧
      l.dropWhile (fun y => key y ≤ k) = l.filter (fun y => k < key y) := by
  induction l with
  | nil => exact ⟨rfl, rfl⟩
  | cons a as ih =>
      obtain ⟨ha, has⟩ := List.pairwise_cons.mp h
      obtain ⟨htake, hdrop⟩ := ih has
      by_cases hle : key a ≤ k
      · have hlt : ¬ k < key a := not_lt.mpr hle
        simp [hle, hlt, htake, hdrop]
      · have hlt : k < key a := not_le.mp hle
        have hall : ∀ y ∈ as, k < key y := fun y hy => hlt.trans_le (ha y hy)
        have hnone : as.filter (fun y => key y ≤ k) = [] := by
          apply List.filter_eq_nil_iff.mpr
          intro y hy
          simpa using hall y hy
        have hself : as.filter (fun y => k < key y) = as := by
          apply List.filter_eq_self.mpr
          intro y hy
          simpa using hall y hy
        simp [hle, hlt, hnone, hself]

end Placing

section Arrangement

theorem arrange_concat : arrange key (a ++ [x]) = place key (arrange key a) x := by
  simp [arrange]

theorem arrange_append : arrange key (a ++ m) = m.foldl (place key) (arrange key a) := by
  simp [arrange]

theorem arrange_inOrder (a : List α) : InOrder key (arrange key a) := by
  induction a using List.reverseRecOn with
  | nil => exact List.Pairwise.nil
  | append_singleton a x ih =>
      rw [arrange_concat]
      exact ih.place x

theorem ofKey_arrange (a : List α) (k : κ) : ofKey key (arrange key a) k = ofKey key a k := by
  induction a using List.reverseRecOn with
  | nil => rfl
  | append_singleton a x ih =>
      rw [arrange_concat, (arrange_inOrder a).ofKey_place, ofKey_append, ih, ← ofKey_append]

theorem arrange_perm (a : List α) : (arrange key a).Perm a := by
  induction a using List.reverseRecOn with
  | nil => rfl
  | append_singleton a x ih =>
      rw [arrange_concat]
      apply place_perm.trans
      apply (ih.cons x).trans
      exact (List.perm_append_singleton x a).symm

theorem mem_arrange : x ∈ arrange key a ↔ x ∈ a :=
  (arrange_perm a).mem_iff

/-- A list in order that holds the arrivals of each key as they came is their
arrangement. -/
theorem eq_arrange_iff :
    l = arrange key a ↔ InOrder key l ∧ ∀ k, ofKey key l k = ofKey key a k := by
  constructor
  · intro h
    rw [h]
    exact ⟨arrange_inOrder a, ofKey_arrange a⟩
  · intro h
    apply eq_of_ofKey h.1 (arrange_inOrder a)
    intro k
    rw [h.2 k, ofKey_arrange]

/-- Some of the arrivals are arranged as they were. -/
theorem arrange_filter (p : α → Bool) :
    (arrange key a).filter p = arrange key (a.filter p) := by
  apply eq_arrange_iff.mpr
  constructor
  · exact (arrange_inOrder a).sublist List.filter_sublist
  · intro k
    have hcomm : ∀ l : List α, ofKey key (l.filter p) k = (ofKey key l k).filter p := by
      intro l
      unfold ofKey
      rw [List.filter_filter, List.filter_filter]
      congr 1
      funext y
      exact Bool.and_comm _ _
    rw [hcomm, hcomm, ofKey_arrange]

/-- Taking the first of some elements of one key away is the same before and after. -/
theorem arrange_eraseP (p : α → Bool) (hp : ∀ y, p y → key y = k) :
    (arrange key a).eraseP p = arrange key (a.eraseP p) := by
  have hcomm : ∀ (l : List α) (j : κ), ofKey key (l.eraseP p) j =
      if j = k then (ofKey key l j).eraseP p else ofKey key l j := by
    intro l j
    induction l with
    | nil => split <;> rfl
    | cons b bs ih =>
        by_cases hb : p b
        · rw [List.eraseP_cons_of_pos hb]
          by_cases hj : j = k
          · rw [if_pos hj, ofKey_cons_self (hj ▸ hp b hb), List.eraseP_cons_of_pos hb]
          · have hne : key b ≠ j := by
              rw [hp b hb]
              exact Ne.symm hj
            rw [if_neg hj, ofKey_cons_of_ne hne]
        · rw [List.eraseP_cons_of_neg hb]
          by_cases hkey : key b = j
          · rw [ofKey_cons_self hkey, ofKey_cons_self hkey, ih]
            split
            · rw [List.eraseP_cons_of_neg hb]
            · rfl
          · rw [ofKey_cons_of_ne hkey, ofKey_cons_of_ne hkey, ih]
  apply eq_arrange_iff.mpr
  constructor
  · exact (arrange_inOrder a).sublist List.eraseP_sublist
  · intro j
    rw [hcomm, hcomm, ofKey_arrange]

/-- The first element is the earliest arrival of the least key. -/
theorem arrange_cons (h : arrange key a = x :: l) :
    (∀ y ∈ a, key x ≤ key y) ∧ (ofKey key a (key x)).head? = some x := by
  constructor
  · intro y hy
    have hmem : y ∈ x :: l := h ▸ mem_arrange.mpr hy
    have horder : InOrder key (x :: l) := h ▸ arrange_inOrder a
    obtain rfl | hmem := List.mem_cons.mp hmem
    · exact le_rfl
    · exact (List.pairwise_cons.mp horder).1 y hmem
  · rw [← ofKey_arrange a, h, ofKey_cons_self rfl]
    rfl

end Arrangement

end StableOrder
