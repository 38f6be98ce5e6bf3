import Mathlib.Algebra.GroupWithZero.Nat
import Mathlib.Data.List.Nodup
import ClassImage.Layout
import ClassImage.Proofs.Bytes

/-!
# Where entries start

The offsets of entries that follow each other are the sums of the widths before them. `offsetsFrom`
is that list, `Layout.toList_ofList` finds it in layouts, and `Reader.cut_flatMap` in a byte string
that is cut into the pieces it was put together from.
-/

namespace ClassImage

/-! ### Offsets -/

section Offsets

variable {α β : Type} (size : α → Nat)

/-- Where entries that follow each other start, if the first starts at `start`. -/
def offsetsFrom : Nat → List α → List Nat
  | _, [] => []
  | start, a :: as => start :: offsetsFrom (start + size a) as

/-- The room that entries take together. -/
def totalSize (as : List α) : Nat := (as.map size).sum

@[simp] theorem totalSize_nil : totalSize size [] = 0 := rfl

@[simp] theorem totalSize_cons (a : α) (as : List α) :
    totalSize size (a :: as) = size a + totalSize size as := by
  rw [totalSize, List.map_cons, List.sum_cons, ← totalSize]

theorem totalSize_append (as bs : List α) :
    totalSize size (as ++ bs) = totalSize size as + totalSize size bs := by
  rw [totalSize, List.map_append, List.sum_append, ← totalSize, ← totalSize]

theorem totalSize_flatten (groups : List (List α)) :
    totalSize size groups.flatten = totalSize (totalSize size) groups := by
  rw [totalSize, List.map_flatten, List.sum_flatten, List.map_map]
  rfl

theorem totalSize_map (f : β → α) (bs : List β) :
    totalSize size (bs.map f) = totalSize (fun b => size (f b)) bs := by
  rw [totalSize, List.map_map]
  rfl

theorem totalSize_of_forall {size : α → Nat} {as : List α} {n : Nat} (h : ∀ a ∈ as, size a = n) :
    totalSize size as = as.length * n := by
  rw [totalSize, List.map_eq_replicate_iff.mpr h, List.sum_replicate_nat]

theorem totalSize_reverse (as : List α) : totalSize size as.reverse = totalSize size as := by
  rw [totalSize, List.map_reverse, List.sum_reverse, ← totalSize]

@[simp] theorem length_offsetsFrom (start : Nat) (as : List α) :
    (offsetsFrom size start as).length = as.length := by
  induction as generalizing start with
  | nil => rfl
  | cons a as ih => rw [offsetsFrom, List.length_cons, ih, List.length_cons]

theorem offsetsFrom_append (start : Nat) (as bs : List α) :
    offsetsFrom size start (as ++ bs) =
      offsetsFrom size start as ++ offsetsFrom size (start + totalSize size as) bs := by
  induction as generalizing start with
  | nil => rfl
  | cons a as ih =>
    rw [List.cons_append, offsetsFrom, offsetsFrom, ih, totalSize_cons,
      List.cons_append, Nat.add_assoc]

theorem start_le_of_mem_offsetsFrom {start offset : Nat} {as : List α}
    (h : offset ∈ offsetsFrom size start as) : start ≤ offset := by
  induction as generalizing start with
  | nil => exact absurd h List.not_mem_nil
  | cons a as ih =>
    rcases List.mem_cons.mp h with rfl | h
    · exact Nat.le_refl _
    · exact Nat.le_trans (Nat.le_add_right _ _) (ih h)

/-- **Entries that take room start at different places, in order.** -/
theorem pairwise_offsetsFrom {as : List α} (hpos : ∀ a ∈ as, 0 < size a) (start : Nat) :
    (offsetsFrom size start as).Pairwise (· < ·) := by
  induction as generalizing start with
  | nil => exact List.Pairwise.nil
  | cons a as ih =>
    refine List.Pairwise.cons (fun offset h => ?_)
      (ih (fun b hb => hpos b (List.mem_cons_of_mem a hb)) _)
    have := start_le_of_mem_offsetsFrom size h
    have := hpos a List.mem_cons_self
    omega

theorem lt_of_mem_offsetsFrom {start offset : Nat} {as : List α} (hpos : ∀ a ∈ as, 0 < size a)
    (h : offset ∈ offsetsFrom size start as) : offset < start + totalSize size as := by
  induction as generalizing start with
  | nil => exact absurd h List.not_mem_nil
  | cons a as ih =>
    have ha := hpos a List.mem_cons_self
    rw [totalSize_cons]
    rcases List.mem_cons.mp h with rfl | h
    · omega
    · have := ih (fun b hb => hpos b (List.mem_cons_of_mem a hb)) h
      omega

/-- Only the sizes matter for the offsets. -/
theorem offsetsFrom_map (f : β → α) (start : Nat) (bs : List β) :
    offsetsFrom size start (bs.map f) = offsetsFrom (fun b => size (f b)) start bs := by
  induction bs generalizing start with
  | nil => rfl
  | cons b bs ih => rw [List.map_cons, offsetsFrom, offsetsFrom, ih]

/-- An entry stands behind the room that the entries before it take. -/
theorem getElem?_offsetsFrom (start : Nat) {as : List α} {i : Nat} (h : i < as.length) :
    (offsetsFrom size start as)[i]? = some (start + totalSize size (as.take i)) := by
  induction as generalizing start i with
  | nil => simp at h
  | cons a as ih =>
    cases i with
    | zero => simp [offsetsFrom]
    | succ i =>
      rw [offsetsFrom, List.getElem?_cons_succ, ih (start + size a) (by simpa using h),
        List.take_succ_cons, totalSize_cons, Nat.add_assoc]

/-- The offsets in a list of groups are the offsets in each group from where the group starts. -/
theorem zip_offsetsFrom_flatten (start : Nat) (groups : List (List α)) :
    (offsetsFrom size start groups.flatten).zip groups.flatten =
      ((offsetsFrom (totalSize size) start groups).zip groups).flatMap fun placed =>
        (offsetsFrom size placed.1 placed.2).zip placed.2 := by
  induction groups generalizing start with
  | nil => rfl
  | cons group groups ih =>
    rw [List.flatten_cons, offsetsFrom_append, List.zip_append (by simp), ih, offsetsFrom,
      List.zip_cons_cons, List.flatMap_cons]

/-- Entries of one size stand at multiples of it. -/
theorem zip_offsetsFrom_of_forall {size : α → Nat} {n : Nat} (start : Nat) {as : List α}
    (h : ∀ a ∈ as, size a = n) :
    (offsetsFrom size start as).zip as = as.zipIdx.map fun entry =>
      (start + n * entry.2, entry.1) := by
  refine List.ext_getElem? fun i => ?_
  by_cases hi : i < as.length
  · have htake : totalSize size (as.take i) = n * i := by
      rw [totalSize_of_forall fun a ha => h a (List.mem_of_mem_take ha), List.length_take,
        Nat.min_eq_left (Nat.le_of_lt hi), Nat.mul_comm]
    have hoffset := getElem?_offsetsFrom size start hi
    rw [htake] at hoffset
    have hzip : ((offsetsFrom size start as).zip as)[i]? = some (start + n * i, as[i]) :=
      List.getElem?_zip_eq_some.mpr ⟨hoffset, List.getElem?_eq_getElem hi⟩
    rw [hzip]
    simp [hi]
  · rw [List.getElem?_eq_none (by simp; omega), List.getElem?_eq_none (by simp; omega)]

end Offsets

/-! ### Layouts -/

namespace Layout

variable {α : Type} [Width α]

theorem foldl_extend (layout : Layout α) (as : List α) :
    as.foldl extend layout = ⟨layout.entries ++ as.toArray,
      layout.offsets ++ (offsetsFrom width layout.stop as).toArray,
        layout.stop + totalSize width as⟩ := by
  induction as generalizing layout with
  | nil => simp [offsetsFrom]
  | cons a as ih =>
    rw [List.foldl_cons, ih]
    simp [extend, offsetsFrom, Nat.add_assoc]

theorem ofList_eq (start : Nat) (as : List α) :
    ofList start as = ⟨as.toArray, (offsetsFrom width start as).toArray,
      start + totalSize width as⟩ := by
  rw [ofList, foldl_extend]
  simp [startingAt]

theorem stop_ofList (start : Nat) (as : List α) :
    (ofList start as).stop = start + totalSize width as := by
  rw [ofList_eq]

theorem push_eq_extend {layout : Layout α} {a : α} (h : layout.stop + width a < UInt64.size) :
    layout.push a = layout.extend a := by
  rw [push, Nat.mod_eq_of_lt h]
  rfl

/-- Nothing wraps around as long as the end of the last entry fits. -/
theorem foldl_push {layout : Layout α} {as : List α}
    (h : layout.stop + totalSize width as < UInt64.size) :
    as.foldl push layout = as.foldl extend layout := by
  induction as generalizing layout with
  | nil => rfl
  | cons a as ih =>
    rw [totalSize_cons, ← Nat.add_assoc] at h
    rw [List.foldl_cons, List.foldl_cons, push_eq_extend
      (Nat.lt_of_le_of_lt (Nat.le_add_right _ _) h)]
    exact ih h

/-- **The entries of a layout stand at the sums of the widths before them.** -/
theorem toList_ofList (start : Nat) (as : List α) :
    (ofList start as).toList = (offsetsFrom width start as).zip as := by
  rw [ofList_eq, toList]

end Layout

/-! ### Cutting -/

namespace Reader

variable {ε α γ : Type} {item : Nat → Reader ε (α × Nat)} {encode : γ → Bytes} {value : γ → α}

theorem cutOnto_flatMap {gs : List γ} (hpos : ∀ g ∈ gs, encode g ≠ [])
    (hitem : ∀ g ∈ gs, ∀ offset rest,
      item offset (encode g ++ rest) = .ok ((value g, (encode g).length), rest)) :
    ∀ bound offset done, (gs.flatMap encode).length ≤ bound →
      cutOnto item bound offset done (gs.flatMap encode) = .ok (done.reverse ++
        (offsetsFrom (fun g => (encode g).length) offset gs).zip (gs.map value)) := by
  induction gs with
  | nil =>
    intro bound offset done _
    cases bound <;> simp [cutOnto, offsetsFrom]
  | cons g gs ih =>
    intro bound offset done hbound
    rw [List.flatMap_cons, List.length_append] at hbound
    have hne := hpos g List.mem_cons_self
    have hread := hitem g List.mem_cons_self offset (gs.flatMap encode)
    -- The first piece is not empty, so a bound is left for the rest.
    obtain ⟨b, bs, hbs⟩ := List.exists_cons_of_ne_nil hne
    have hlen : (encode g).length = bs.length + 1 := by rw [hbs, List.length_cons]
    obtain ⟨bound, rfl⟩ : ∃ n, bound = n + 1 := ⟨bound - 1, by omega⟩
    rw [hbs, List.cons_append] at hread
    rw [List.flatMap_cons, hbs, List.cons_append, cutOnto]
    simp only [hread]
    rw [ih (fun g' h => hpos g' (List.mem_cons_of_mem g h))
      (fun g' h => hitem g' (List.mem_cons_of_mem g h)) _ _ _ (by omega)]
    simp [offsetsFrom, hbs]

/-- **What was put together is cut into the same pieces.** -/
theorem cut_flatMap {gs : List γ} (hpos : ∀ g ∈ gs, encode g ≠ [])
    (hitem : ∀ g ∈ gs, ∀ offset rest,
      item offset (encode g ++ rest) = .ok ((value g, (encode g).length), rest)) :
    cut item (gs.flatMap encode) =
      .ok ((offsetsFrom (fun g => (encode g).length) 0 gs).zip (gs.map value)) := by
  exact cutOnto_flatMap hpos hitem _ 0 [] (Nat.le_refl _)

end Reader

end ClassImage
