import Mathlib.Data.List.Chain
import Mathlib.Data.List.Pairwise
import Mathlib.Order.Basic
import Mathlib.Order.Lattice
import Mathlib.Order.Defs.LinearOrder

/-!
# Sorting by a key

A sort that promises a permutation in the order of the keys leaves the order of
equal keys open. `StableOutcome` is the outcome that keeps it; there is one such
outcome, and a sort without this promise may miss it as soon as two elements
with the same key look different.
-/

namespace HighPerformance.SortedByKey

variable {α β K : Type} [LinearOrder K]

structure SortOutcome (key : α → K) (xs ys : List α) : Prop where
  perm : ys.Perm xs
  sorted : ys.Pairwise fun a b => key a ≤ key b

structure StableOutcome (key : α → K) (xs ys : List α) : Prop extends SortOutcome key xs ys where
  ties : ∀ k, (ys.filter fun a => key a = k) = xs.filter fun a => key a = k

/-- Merge sort, which is stable. -/
def stable (key : α → K) (xs : List α) : List α := xs.mergeSort fun a b => decide (key a ≤ key b)

section Stable
variable {key : α → K} {xs ys zs : List α}

theorem sublist_stable (hzs : zs.Pairwise fun a b => key a ≤ key b) (h : zs.Sublist xs) :
    zs.Sublist (stable key xs) := by
  apply List.sublist_mergeSort
  · intro a b c hab hbc
    exact decide_eq_true (le_trans (of_decide_eq_true hab) (of_decide_eq_true hbc))
  · intro a b
    simpa using le_total (key a) (key b)
  · exact hzs.imp fun hab => decide_eq_true hab
  · exact h

theorem stable_filter {p : α → Bool}
    (h : (xs.filter p).Pairwise fun a b => key a ≤ key b) :
    (stable key xs).filter p = xs.filter p := by
  have hsub : (xs.filter p).Sublist ((stable key xs).filter p) := by
    have hall := (sublist_stable h List.filter_sublist).filter p
    rw [List.filter_filter] at hall
    simpa using hall
  have hperm : ((stable key xs).filter p).Perm (xs.filter p) := (List.mergeSort_perm xs _).filter p
  exact (hsub.eq_of_length hperm.length_eq.symm).symm

theorem stable_outcome (key : α → K) (xs : List α) : StableOutcome key xs (stable key xs) := by
  constructor
  · constructor
    · exact List.mergeSort_perm xs _
    · have hsorted : (stable key xs).Pairwise fun a b => decide (key a ≤ key b) = true := by
        apply List.pairwise_mergeSort
        · intro a b c hab hbc
          exact decide_eq_true (le_trans (of_decide_eq_true hab) (of_decide_eq_true hbc))
        · intro a b
          simpa using le_total (key a) (key b)
      exact hsorted.imp fun hab => of_decide_eq_true hab
  · intro k
    apply stable_filter
    apply List.pairwise_of_forall_mem_list
    intro a ha b hb
    have hka : key a = k := by simpa using (List.mem_filter.mp ha).2
    have hkb : key b = k := by simpa using (List.mem_filter.mp hb).2
    rw [hka, hkb]

/-- The heads agree, since both have the least key and the ties of that key agree. -/
theorem eq_of_ties (hys : ys.Pairwise fun a b => key a ≤ key b)
    (hzs : zs.Pairwise fun a b => key a ≤ key b)
    (h : ∀ k, (ys.filter fun a => key a = k) = zs.filter fun a => key a = k) : ys = zs := by
  induction ys generalizing zs with
  | nil =>
    cases zs with
    | nil => rfl
    | cons z zs =>
      have hz := h (key z)
      simp at hz
  | cons y ys ih =>
    cases zs with
    | nil =>
      have hy := h (key y)
      simp at hy
    | cons z zs =>
      rw [List.pairwise_cons] at hys hzs
      have hmem : ∀ {us vs : List α} {u : α}, (∀ k, (us.filter fun a => key a = k) =
          vs.filter fun a => key a = k) → u ∈ us → u ∈ vs := by
        intro us vs u hk hu
        have hin : u ∈ us.filter fun a => key a = key u := by simp [hu]
        rw [hk] at hin
        exact (List.mem_filter.mp hin).1
      have hle : key y ≤ key z := by
        rcases List.mem_cons.mp (hmem (fun k => (h k).symm) List.mem_cons_self) with he | hin
        · rw [he]
        · exact hys.1 z hin
      have hge : key z ≤ key y := by
        rcases List.mem_cons.mp (hmem h List.mem_cons_self) with he | hin
        · rw [he]
        · exact hzs.1 y hin
      have hkey : key y = key z := le_antisymm hle hge
      have hfirst := h (key z)
      simp only [List.filter_cons, hkey, decide_true, if_true, List.cons.injEq] at hfirst
      obtain ⟨rfl, -⟩ := hfirst
      rw [ih hys.2 hzs.2]
      intro k
      have hk := h k
      by_cases hyk : key y = k
      · simpa [List.filter_cons, hyk] using hk
      · simpa [List.filter_cons, hyk] using hk

theorem StableOutcome.eq_stable (h : StableOutcome key xs ys) : ys = stable key xs := by
  have hs := stable_outcome key xs
  apply eq_of_ties h.sorted hs.sorted
  intro k
  rw [h.ties, hs.ties]

end Stable

section Unstable
variable {key : α → K} {xs ys : List α}

/-- Where equal keys mean equal elements there is only one outcome. -/
theorem SortOutcome.stable (h : SortOutcome key xs ys)
    (hties : ∀ x ∈ xs, ∀ y ∈ xs, key x = key y → x = y) : ys = SortedByKey.stable key xs := by
  have hs := stable_outcome key xs
  apply (h.perm.trans hs.perm.symm).eq_of_pairwise _ h.sorted hs.sorted
  intro a b ha hb hab hba
  exact hties a (h.perm.mem_iff.mp ha) b (hs.perm.mem_iff.mp hb) (le_antisymm hab hba)

/-- Two elements that share a key and look different: some outcome shows them the other
way round. -/
theorem exists_outcome_ne (f : α → β) {x y : α} (hx : x ∈ xs) (hy : y ∈ xs)
    (hkey : key x = key y) (hne : f x ≠ f y) :
    ∃ ys, SortOutcome key xs ys ∧ ys.map f ≠ (SortedByKey.stable key xs).map f := by
  have hs := stable_outcome key xs
  set zs := SortedByKey.stable key xs
  let R : α → α → Prop := fun a b => key a < key b ∨ key a = key b ∧ f a = f b
  -- otherwise all elements of one key would look alike
  have hchain : ¬zs.IsChain R := by
    intro hc
    have htrans : IsTrans α R := by
      constructor
      rintro a b c (hab | ⟨hab, hfab⟩) (hbc | ⟨hbc, hfbc⟩)
      · exact .inl (lt_trans hab hbc)
      · exact .inl (hbc ▸ hab)
      · exact .inl (hab ▸ hbc)
      · exact .inr ⟨hab.trans hbc, hfab.trans hfbc⟩
    have halike : zs.Pairwise fun a b => key a = key b → f a = f b := by
      apply (List.isChain_iff_pairwise.mp hc).imp
      rintro a b (hlt | ⟨-, hf⟩) hk
      · exact (ne_of_lt hlt hk).elim
      · exact hf
    have hsymm : Std.Symm fun a b => key a = key b → f a = f b :=
      ⟨fun a b hab hk => (hab hk.symm).symm⟩
    exact hne (halike.forall_of_forall (fun _ _ _ => rfl) (hs.perm.mem_iff.mpr hx)
      (hs.perm.mem_iff.mpr hy) hkey)
  rw [List.isChain_iff_forall_rel_of_append_cons_cons] at hchain
  push Not at hchain
  obtain ⟨a, b, u, v, hsplit, hab⟩ := hchain
  have hsorted := hs.sorted
  rw [hsplit, List.pairwise_append] at hsorted
  obtain ⟨hu, hv, huv⟩ := hsorted
  have hle : key a ≤ key b := (List.pairwise_cons.mp hv).1 b List.mem_cons_self
  have hequal : key a = key b := (lt_or_eq_of_le hle).resolve_left fun hlt => hab (.inl hlt)
  have hlook : f a ≠ f b := fun hf => hab (.inr ⟨hequal, hf⟩)
  refine ⟨u ++ b :: a :: v, ⟨?_, ?_⟩, ?_⟩
  · have hswap : (u ++ b :: a :: v).Perm zs := by
      rw [hsplit]
      exact (List.Perm.swap a b v).append_left u
    exact hswap.trans hs.perm
  · rw [List.pairwise_append]
    simp only [List.pairwise_cons, List.mem_cons, forall_eq_or_imp] at hv huv ⊢
    refine ⟨hu, ⟨⟨le_of_eq hequal.symm, hv.2.1⟩, hv.1.2, hv.2.2⟩, ?_⟩
    exact fun c hc => ⟨(huv c hc).2.1, (huv c hc).1, (huv c hc).2.2⟩
  · rw [hsplit, List.map_append, List.map_append]
    intro hmaps
    have htails := List.append_cancel_left hmaps
    rw [List.map_cons, List.map_cons] at htails
    exact hlook (List.cons.inj htails).1.symm

end Unstable

end HighPerformance.SortedByKey
