import ClassImage.Search

/-!
# What searching by halving finds

A property that holds up to some index and not from there on is found out by halving the range in
which that index must be (`bisect_eq`). In a list of two parts it is the length of the first
(`partitionPoint_append`), and an ordered list has such parts (`exists_parts`).
-/

namespace ClassImage

/-- Halving stays around the boundary, and each time the range gets smaller. -/
theorem bisect_eq {holds : Nat → Bool} {boundary size : Nat}
    (hbelow : ∀ i < boundary, holds i = true)
    (hbehind : ∀ i, boundary ≤ i → i < size → holds i = false) :
    ∀ {bound low high : Nat}, low ≤ boundary → boundary ≤ high → high ≤ size → high - low ≤ bound →
      bisect holds bound low high = boundary := by
  intro bound
  induction bound with
  | zero =>
    intro low high hlow hhigh _ hbound
    rw [bisect]
    omega
  | succ bound ih =>
    intro low high hlow hhigh hsize hbound
    rw [bisect]
    by_cases hlt : low < high
    · simp only [if_pos hlt]
      cases hmiddle : holds ((low + high) / 2) with
      | true =>
        have hless : (low + high) / 2 < boundary := by
          refine Nat.lt_of_not_le fun hle => ?_
          rw [hbehind _ hle (by omega)] at hmiddle
          exact absurd hmiddle (by decide)
        rw [if_pos rfl]
        exact ih (by omega) hhigh hsize (by omega)
      | false =>
        have hle : boundary ≤ (low + high) / 2 := by
          refine Nat.le_of_not_lt fun hless => ?_
          rw [hbelow _ hless] at hmiddle
          exact absurd hmiddle (by decide)
        rw [if_neg (by decide)]
        exact ih hlow hle (by omega) (by omega)
    · rw [if_neg hlt]
      omega

/-- **The partition point of a list of two parts is where the second one starts.** -/
theorem partitionPoint_append {α : Type} {before behind : List α} {p : α → Bool}
    {holds : Nat → Bool} (hholds : ∀ i a, (before ++ behind)[i]? = some a → holds i = p a)
    (hbefore : ∀ a ∈ before, p a = true) (hbehind : ∀ a ∈ behind, p a = false) :
    partitionPoint (before ++ behind).length holds = before.length := by
  have hlength : (before ++ behind).length = before.length + behind.length := List.length_append
  have hlow : ∀ i < before.length, holds i = true := by
    intro i hi
    have hget : (before ++ behind)[i]? = some before[i] := by
      rw [List.getElem?_append_left hi, List.getElem?_eq_getElem hi]
    rw [hholds i _ hget]
    exact hbefore _ (List.getElem_mem hi)
  have hhigh : ∀ i, before.length ≤ i → i < (before ++ behind).length → holds i = false := by
    intro i hi hlt
    have hinside : i - before.length < behind.length := by omega
    have hget : (before ++ behind)[i]? = some behind[i - before.length] := by
      rw [List.getElem?_append_right hi, List.getElem?_eq_getElem hinside]
    rw [hholds i _ hget]
    exact hbehind _ (List.getElem_mem _)
  exact bisect_eq hlow hhigh (Nat.zero_le _) (by omega) (Nat.le_refl _) (Nat.le_refl _)

/-- A list in which a property ends somewhere has a part with it and a part without it. -/
theorem exists_parts {α : Type} {p : α → Bool} {as : List α}
    (h : as.Pairwise fun a b => p b = true → p a = true) :
    ∃ before behind, as = before ++ behind ∧ (∀ a ∈ before, p a = true) ∧
      ∀ a ∈ behind, p a = false := by
  induction as with
  | nil => exact ⟨[], [], rfl, by simp, by simp⟩
  | cons a as ih =>
    obtain ⟨hfirst, hrest⟩ := List.pairwise_cons.mp h
    cases ha : p a with
    | true =>
      obtain ⟨before, behind, rfl, hbefore, hbehind⟩ := ih hrest
      exact ⟨a :: before, behind, rfl, List.forall_mem_cons.mpr ⟨ha, hbefore⟩, hbehind⟩
    | false =>
      refine ⟨[], a :: as, rfl, by simp, List.forall_mem_cons.mpr ⟨ha, fun b hb => ?_⟩⟩
      rw [← Bool.not_eq_true]
      intro hpb
      rw [hfirst b hb hpb] at ha
      exact absurd ha (by decide)

end ClassImage
