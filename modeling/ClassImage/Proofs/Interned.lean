import Std.Data.TreeMap.Lemmas
import Mathlib.Data.List.Nodup
import ClassImage.Interned

/-!
# Tables whose search tree is their inverse

The two halves of a table are kept together by `Interned.WellFormed`: the search tree finds an index
exactly for the value that stands at it, and no index is the reserved one. Seen as a list, a table
then only grows: `intern` leaves what is there and finds or adds the value (`intern_spec`), and
`truncate` undoes any amount of growth (`toList_truncate_size`). What `intern` returns depends on
the entries alone (`intern_congr`), and stays the same however much the table has grown since
(`intern_of_prefix`).
-/

namespace ClassImage.Interned

variable {α : Type} [Ord α]

/-- The search tree finds exactly the entries, and there are not too many of them. -/
structure WellFormed (table : Interned α) : Prop where
  index_iff : ∀ (a : α) (i : UInt16), table.index[a]? = some i ↔ table.entries[i.toNat]? = some a
  size_le : table.size ≤ capacity

theorem length_toList (table : Interned α) : table.toList.length = table.size := Array.length_toList

theorem getElem?_toList (table : Interned α) (i : Nat) : table.toList[i]? = table.entries[i]? :=
  Array.getElem?_toList

/-- The number of entries of a table that is not full is an index. -/
theorem toNat_ofNat_of_le {n : Nat} (h : n ≤ capacity) : (UInt16.ofNat n).toNat = n := by
  rw [UInt16.toNat_ofNat']
  exact Nat.mod_eq_of_lt (Nat.lt_succ_of_le h)

theorem wellFormed_empty [Std.TransOrd α] : (empty : Interned α).WellFormed where
  index_iff a i := by simp [empty]
  size_le := Nat.zero_le _

namespace WellFormed

variable {table : Interned α}

/-- The index of an entry is found under it. -/
theorem indexOf?_eq (h : table.WellFormed) {a : α} {i : Nat} (ha : table.toList[i]? = some a) :
    table.indexOf? a = some (UInt16.ofNat i) := by
  have hi : i < table.toList.length := (List.getElem?_eq_some_iff.mp ha).1
  rw [length_toList] at hi
  refine (h.index_iff a _).mpr ?_
  rwa [toNat_ofNat_of_le (Nat.le_trans (Nat.le_of_lt hi) h.size_le), ← getElem?_toList]

/-- **No value stands in a table twice.** -/
theorem nodup (h : table.WellFormed) : table.toList.Nodup := by
  refine List.nodup_iff_getElem?_ne_getElem?.mpr fun i j hij hj heq => ?_
  have hget := List.getElem?_eq_getElem hj
  have h₁ := h.indexOf?_eq hget
  have h₂ := h.indexOf?_eq (heq.trans hget)
  have hsame : (UInt16.ofNat i).toNat = (UInt16.ofNat j).toNat :=
    congrArg UInt16.toNat (Option.some.inj (h₂.symm.trans h₁))
  rw [length_toList] at hj
  have hle := h.size_le
  rw [toNat_ofNat_of_le (by omega), toNat_ofNat_of_le (by omega)] at hsame
  omega

/-- A new value at the end of a table that is not full. -/
theorem push [Std.TransOrd α] [Std.LawfulEqOrd α] (h : table.WellFormed) {a : α}
    (hnew : table.index[a]? = none) (hroom : table.size < capacity) :
    (⟨table.entries.push a, table.index.insert a (UInt16.ofNat table.size)⟩ :
      Interned α).WellFormed where
  index_iff b i := by
    have hsize : (UInt16.ofNat table.size).toNat = table.entries.size :=
      toNat_ofNat_of_le (Nat.le_of_lt hroom)
    show (table.index.insert a (UInt16.ofNat table.size))[b]? = some i ↔
      (table.entries.push a)[i.toNat]? = some b
    rw [Std.TreeMap.getElem?_insert, Array.getElem?_push]
    by_cases hab : a = b
    · subst hab
      rw [if_pos Std.ReflCmp.compare_self]
      constructor
      · rintro h'
        obtain rfl := Option.some.inj h'
        rw [if_pos hsize]
      · intro h'
        by_cases hi : i.toNat = table.entries.size
        · rw [← UInt16.ofNat_toNat (x := i), hi]
          rfl
        · rw [if_neg hi, ← h.index_iff, hnew] at h'
          exact absurd h' (by simp)
    · rw [if_neg (fun hc => hab (Std.LawfulEqCmp.eq_of_compare hc))]
      by_cases hi : i.toNat = table.entries.size
      · rw [if_pos hi, h.index_iff, hi]
        simp [hab]
      · rw [if_neg hi, h.index_iff]
  size_le := by
    rw [size, Array.size_push]
    exact hroom

end WellFormed

/-! ### Interning -/

/-- What `intern` leaves behind: at most the new value is added, at the end, and the index that is
returned is its index, which is not the reserved one. -/
structure InternSpec (table : Interned α) (a : α) (found : Option UInt16) (table' : Interned α) :
    Prop where
  wellFormed : table'.WellFormed
  toList_eq : table'.toList = table.toList ∨ table'.toList = table.toList ++ [a]
  at_index : ∀ i, found = some i → table'.toList[i.toNat]? = some a ∧ i.toNat < capacity

/-- **Interning finds or adds a value and keeps the rest.** -/
theorem intern_spec [Std.TransOrd α] [Std.LawfulEqOrd α] {table : Interned α} (h : table.WellFormed)
    (a : α) : InternSpec table a (table.intern a).1 (table.intern a).2 := by
  obtain ⟨entries, index⟩ := table
  rw [intern]
  cases hfind : index[a]? with
  | some j =>
    have hat : entries[j.toNat]? = some a := (h.index_iff a j).mp hfind
    have hlt : j.toNat < entries.size := (Array.getElem?_eq_some_iff.mp hat).1
    refine ⟨h, Or.inl rfl, fun i hi => ?_⟩
    obtain rfl := Option.some.inj hi
    exact ⟨by rwa [getElem?_toList], Nat.lt_of_lt_of_le hlt h.size_le⟩
  | none =>
    by_cases hroom : entries.size < capacity
    · simp only [if_pos hroom]
      have hlt : (UInt16.ofNat entries.size).toNat = entries.size :=
        toNat_ofNat_of_le (Nat.le_of_lt hroom)
      refine ⟨h.push hfind hroom, Or.inr (Array.toList_push ..), fun i hi => ?_⟩
      obtain rfl := Option.some.inj hi
      exact ⟨by rw [getElem?_toList, hlt, Array.getElem?_push_size], by rwa [hlt]⟩
    · simp only [if_neg hroom]
      exact ⟨h, Or.inl rfl, fun i hi => absurd hi (by simp)⟩

namespace InternSpec

variable {table table' : Interned α} {a : α} {found : Option UInt16}

theorem prefix_toList (h : InternSpec table a found table') : table.toList <+: table'.toList := by
  rcases h.toList_eq with heq | heq
  · exact heq ▸ List.prefix_rfl
  · rw [heq]
    exact List.prefix_append _ _

theorem mem (h : InternSpec table a found table') {b : α} (hb : b ∈ table'.toList) :
    b ∈ table.toList ∨ b = a := by
  rcases h.toList_eq with heq | heq <;> rw [heq] at hb
  · exact Or.inl hb
  · simpa using hb

end InternSpec

/-! ### Interning again -/

theorem intern_of_known {table : Interned α} {a : α} {i : UInt16} (h : table.index[a]? = some i) :
    table.intern a = (some i, table) := by
  obtain ⟨entries, index⟩ := table
  simp only [intern, h]

theorem intern_of_full {table : Interned α} {a : α} (h : table.index[a]? = none)
    (hfull : capacity ≤ table.size) : table.intern a = (none, table) := by
  obtain ⟨entries, index⟩ := table
  have hroom : ¬ entries.size < capacity := Nat.not_lt.mpr hfull
  simp only [intern, h, if_neg hroom]

theorem intern_of_new {table : Interned α} {a : α} (h : table.index[a]? = none)
    (hroom : table.size < capacity) : table.intern a = (some (UInt16.ofNat table.size),
      ⟨table.entries.push a, table.index.insert a (UInt16.ofNat table.size)⟩) := by
  obtain ⟨entries, index⟩ := table
  have hroom : entries.size < capacity := hroom
  simp only [intern, h, if_pos hroom]
  rfl

/-- The entries determine what the search tree finds. -/
theorem WellFormed.index_congr {table table' : Interned α} (h : table.WellFormed)
    (h' : table'.WellFormed) (heq : table.toList = table'.toList) (a : α) :
    table.index[a]? = table'.index[a]? := by
  apply Option.ext
  intro i
  rw [h.index_iff, h'.index_iff, ← getElem?_toList, ← getElem?_toList, heq]

/-- **Tables with the same entries go on alike.** -/
theorem intern_congr {table table' : Interned α} (h : table.WellFormed) (h' : table'.WellFormed)
    (heq : table.toList = table'.toList) (a : α) : (table.intern a).1 = (table'.intern a).1 ∧
      (table.intern a).2.toList = (table'.intern a).2.toList := by
  have hindex := h.index_congr h' heq a
  have hsize : table.size = table'.size := by rw [← length_toList, heq, length_toList]
  cases hfind : table.index[a]? with
  | some i =>
    rw [intern_of_known hfind, intern_of_known (hindex ▸ hfind)]
    exact ⟨rfl, heq⟩
  | none =>
    by_cases hroom : table.size < capacity
    · rw [intern_of_new hfind hroom, intern_of_new (hindex ▸ hfind) (hsize ▸ hroom), hsize]
      refine ⟨rfl, ?_⟩
      simp only [toList, Array.toList_push] at heq ⊢
      rw [heq]
    · rw [intern_of_full hfind (by omega), intern_of_full (hindex ▸ hfind) (by omega)]
      exact ⟨rfl, heq⟩

theorem WellFormed.eq_of_prefix_of_full {table table' : Interned α} (h' : table'.WellFormed)
    (hle : table.toList <+: table'.toList) (hfull : capacity ≤ table.size) :
    table.toList = table'.toList := by
  apply hle.eq_of_length
  have hlen := hle.length_le
  have hsize := h'.size_le
  simp only [length_toList] at hlen ⊢
  omega

/-- **A value that was interned is found at its place in every longer table**, and one that found no
place finds none. -/
theorem intern_of_prefix [Std.TransOrd α] [Std.LawfulEqOrd α] {table table' : Interned α}
    (h : table.WellFormed) (h' : table'.WellFormed) {a : α}
    (hle : (table.intern a).2.toList <+: table'.toList) :
    table'.intern a = ((table.intern a).1, table') := by
  have hspec := intern_spec h a
  cases hfound : (table.intern a).1 with
  | some i =>
    rw [hfound] at hspec
    obtain ⟨hat, -⟩ := hspec.at_index i rfl
    obtain ⟨rest, hrest⟩ := hle
    apply intern_of_known
    rw [h'.index_iff, ← getElem?_toList, ← hrest, List.getElem?_append_left]
    · exact hat
    · exact (List.getElem?_eq_some_iff.mp hat).1
  | none =>
    -- Nothing was found because the table is full, and then there is no longer one.
    cases hfind : table.index[a]? with
    | some i => rw [intern_of_known hfind] at hfound; exact absurd hfound (by simp)
    | none =>
      by_cases hroom : table.size < capacity
      · rw [intern_of_new hfind hroom] at hfound
        exact absurd hfound (by simp)
      · have hsame : table.toList <+: table'.toList := by
          rwa [intern_of_full hfind (by omega)] at hle
        have heq := h'.eq_of_prefix_of_full hsame (by omega)
        have hsize : table.size = table'.size := by rw [← length_toList, heq, length_toList]
        exact intern_of_full ((h.index_congr h' heq a).symm.trans hfind) (by omega)

/-! ### Truncating -/

theorem toList_truncate (table : Interned α) (n : Nat) :
    (table.truncate n).toList = table.toList.take n := by
  rw [truncate, toList, toList]
  simp

theorem wellFormed_truncate [Std.TransOrd α] [Std.LawfulEqOrd α] {table : Interned α}
    (h : table.WellFormed) (n : Nat) : (table.truncate n).WellFormed where
  index_iff a i := by
    rw [← getElem?_toList, toList_truncate]
    show (table.index.filter fun _ i => i.toNat < n)[a]? = some i ↔ _
    rw [Std.TreeMap.getElem?_filter', Option.filter_eq_some_iff, h.index_iff, ← getElem?_toList,
      List.getElem?_take]
    by_cases hi : i.toNat < n <;> simp [hi]
  size_le := by
    have hle := h.size_le
    rw [← length_toList] at hle ⊢
    rw [toList_truncate, List.length_take]
    omega

/-- Truncating to the length that a table once had brings back its entries. -/
theorem toList_truncate_size {table table' : Interned α} (h : table.toList <+: table'.toList) :
    (table'.truncate table.size).toList = table.toList := by
  rw [toList_truncate, ← length_toList]
  exact (List.prefix_iff_eq_take.mp h).symm

end ClassImage.Interned
