import ClassImage.ClassFile.ConstantPool
import ClassImage.Proofs.Layout
import ClassImage.Proofs.Search

/-!
# What stands at an offset

Entries that take room share out the offsets between the two ends of a layout: at each of them an
entry starts, or it lies inside of one (`exists_entry_around`). Looking up finds out which, because
the entries that start before an offset come first (`partitionPoint_offsets`). So each of the three
answers says exactly where the offset lies (`lookup_eq_found_iff`, `lookup_eq_inside_iff`,
`lookup_eq_outside_iff`).

All this is said of offsets that are counted on. Adding entries one after the other gives the same
layout until its end wraps around (`pushAll_eq_ofList`).
-/

namespace ClassImage

section Offsets

variable {α : Type} (size : α → Nat) {start offset : Nat} {as : List α}

/-- An entry stands where the entries before it end. -/
theorem mem_zip_offsetsFrom_iff {a : α} : (offset, a) ∈ (offsetsFrom size start as).zip as ↔
    ∃ before behind, as = before ++ a :: behind ∧ offset = start + totalSize size before := by
  induction as generalizing start with
  | nil => simp [offsetsFrom]
  | cons first as ih =>
    rw [offsetsFrom, List.zip_cons_cons, List.mem_cons, ih]
    constructor
    · rintro (heq | ⟨before, behind, rfl, rfl⟩)
      · obtain ⟨rfl, rfl⟩ := Prod.mk.inj heq
        exact ⟨[], as, rfl, rfl⟩
      · exact ⟨first :: before, behind, rfl, by rw [totalSize_cons, Nat.add_assoc]⟩
    · rintro ⟨before, behind, heq, rfl⟩
      cases before with
      | nil =>
        obtain ⟨rfl, rfl⟩ := List.cons.inj heq
        exact Or.inl rfl
      | cons first' before =>
        obtain ⟨rfl, rfl⟩ := List.cons.inj heq
        exact Or.inr ⟨before, behind, rfl, by rw [totalSize_cons, Nat.add_assoc]⟩

/-- An entry has as many entries before it as its index says. -/
theorem exists_append_of_getElem? {a : α} {i : Nat} (h : as[i]? = some a) :
    ∃ before behind, as = before ++ a :: behind ∧ before.length = i := by
  obtain ⟨hi, rfl⟩ := List.getElem?_eq_some_iff.mp h
  refine ⟨as.take i, as.drop (i + 1), ?_, List.length_take_of_le (Nat.le_of_lt hi)⟩
  rw [← List.drop_eq_getElem_cons hi, List.take_append_drop]

/-- **Every offset between the two ends belongs to an entry.** -/
theorem exists_entry_around (hle : start ≤ offset) (hlt : offset < start + totalSize size as) :
    ∃ before a behind, as = before ++ a :: behind ∧ start + totalSize size before ≤ offset ∧
      offset < start + totalSize size before + size a := by
  induction as generalizing start with
  | nil =>
    rw [totalSize_nil] at hlt
    omega
  | cons first as ih =>
    rw [totalSize_cons] at hlt
    by_cases hfirst : offset < start + size first
    · exact ⟨[], first, as, rfl, hle, hfirst⟩
    · obtain ⟨before, a, behind, rfl, hle', hlt'⟩ := ih (Nat.not_lt.mp hfirst) (by omega)
      refine ⟨first :: before, a, behind, rfl, ?_, ?_⟩ <;> rw [totalSize_cons] <;> omega

end Offsets

namespace Layout

variable {α : Type} [Width α] {start offset : Nat} {as before behind : List α} {a : α}

theorem get?_ofList (start : Nat) (as : List α) (i : Nat) :
    (ofList start as).get? i = ((offsetsFrom width start as).zip as)[i]? := by
  rw [get?, ofList_eq]
  by_cases hi : i < as.length
  · simp [hi]
  · simp [Nat.not_lt.mp hi]

theorem get?_length (start : Nat) (before : List α) (a : α) (behind : List α) :
    (ofList start (before ++ a :: behind)).get? before.length =
      some (start + totalSize width before, a) := by
  have hlt : before.length < (before ++ a :: behind).length := by simp
  have hoffset := getElem?_offsetsFrom width start hlt
  rw [List.take_left] at hoffset
  rw [get?_ofList]
  exact List.getElem?_zip_eq_some.mpr ⟨hoffset, by simp⟩

theorem get?_length_self (start : Nat) (as : List α) : (ofList start as).get? as.length = none := by
  rw [get?_ofList, List.getElem?_eq_none (by simp)]

/-! ### Searching -/

/-- The number of entries that start before an offset. -/
theorem partitionPoint_offsets {holds : Nat → Bool}
    (hholds : ∀ i o, (offsetsFrom width start (before ++ behind))[i]? = some o →
      holds i = decide (o < offset))
    (hbefore : ∀ o ∈ offsetsFrom width start before, o < offset)
    (hbehind : offset ≤ start + totalSize width before) :
    partitionPoint (ofList start (before ++ behind)).offsets.size holds = before.length := by
  have hsize : (ofList start (before ++ behind)).offsets.size =
      (offsetsFrom width start before ++ offsetsFrom width (start + totalSize width before)
        behind).length := by
    rw [ofList_eq, List.size_toArray, offsetsFrom_append]
  rw [offsetsFrom_append] at hholds
  rw [hsize, partitionPoint_append hholds, length_offsetsFrom]
  · intro o ho
    exact decide_eq_true (hbefore o ho)
  · intro o ho
    have hle := start_le_of_mem_offsetsFrom width ho
    exact decide_eq_false (by omega)

/-- What stands at an offset, if `count` entries start before it and this one comes next. -/
def atBoundary {α : Type} (offset count : Nat) : Option (Nat × α) → Lookup α
  | some (start, entry) =>
    if start = offset then .found count entry
    else if count = 0 then .outside
    else .inside (count - 1)
  | none => if count = 0 then .outside else .inside (count - 1)

/-- **Looking up turns on the entry with which the offsets stop being smaller.** -/
theorem lookup_of_parts (hstop : offset < start + totalSize width (before ++ behind))
    (hbefore : ∀ o ∈ offsetsFrom width start before, o < offset)
    (hbehind : offset ≤ start + totalSize width before) :
    (ofList start (before ++ behind)).lookup offset =
      atBoundary offset before.length ((ofList start (before ++ behind)).get? before.length) := by
  have hnot : ¬ (ofList start (before ++ behind)).stop ≤ offset := by
    rw [ofList_eq]
    exact Nat.not_le.mpr hstop
  unfold lookup
  rw [if_neg hnot]
  dsimp only
  rw [partitionPoint_offsets ?_ hbefore hbehind]
  · rfl
  · intro i o ho
    simp only [ofList_eq, List.getElem?_toArray, ho]

theorem lookup_of_start (hpos : ∀ b ∈ before ++ a :: behind, 0 < width b) :
    (ofList start (before ++ a :: behind)).lookup (start + totalSize width before) =
      .found before.length a := by
  have ha : 0 < width a := hpos a (by simp)
  rw [lookup_of_parts ?_ ?_ (Nat.le_refl _), get?_length, atBoundary, if_pos rfl]
  · rw [totalSize_append, totalSize_cons]
    omega
  · intro o ho
    exact lt_of_mem_offsetsFrom width (fun b hb => hpos b (List.mem_append_left _ hb)) ho

theorem lookup_of_inside (hpos : ∀ b ∈ before ++ a :: behind, 0 < width b)
    (hlow : start + totalSize width before < offset)
    (hhigh : offset < start + totalSize width before + width a) :
    (ofList start (before ++ a :: behind)).lookup offset = .inside before.length := by
  -- The entry itself starts before the offset, and whatever comes next starts behind it.
  have hsplit : before ++ a :: behind = (before ++ [a]) ++ behind := by simp
  have hend : totalSize width (before ++ [a]) = totalSize width before + width a := by
    rw [totalSize_append, totalSize_cons, totalSize_nil, Nat.add_zero]
  have hnext : ∀ placed, (ofList start ((before ++ [a]) ++ behind)).get?
      (before ++ [a]).length = some placed →
      placed.1 ≠ offset := by
    intro placed hplaced
    cases behind with
    | nil =>
      rw [List.append_nil, get?_length_self] at hplaced
      exact absurd hplaced (by simp)
    | cons b behind =>
      rw [get?_length] at hplaced
      obtain rfl := Option.some.inj hplaced
      dsimp only
      omega
  rw [hsplit, lookup_of_parts]
  · rcases hget : (ofList start ((before ++ [a]) ++ behind)).get? (before ++ [a]).length with
      _ | placed
    · simp [atBoundary]
    · simp [atBoundary, hnext placed hget]
  · rw [totalSize_append]
    omega
  · intro o ho
    rw [offsetsFrom_append] at ho
    rcases List.mem_append.mp ho with ho | ho
    · have hlt := lt_of_mem_offsetsFrom width (fun b hb => hpos b (List.mem_append_left _ hb)) ho
      omega
    · obtain rfl := List.mem_singleton.mp ho
      exact hlow
  · omega

theorem lookup_of_outside (h : offset < start ∨ start + totalSize width as ≤ offset) :
    (ofList start as).lookup offset = .outside := by
  by_cases hstop : start + totalSize width as ≤ offset
  · unfold lookup
    rw [if_pos (by rwa [ofList_eq])]
  · have hlow : offset < start := by omega
    have hparts : (ofList start ([] ++ as)).lookup offset = _ :=
      lookup_of_parts (Nat.not_le.mp hstop) (fun o ho => absurd ho List.not_mem_nil)
        (by rw [totalSize_nil]; omega)
    rw [List.nil_append] at hparts
    rw [hparts]
    cases as with
    | nil => rfl
    | cons a as =>
      have hfirst : (ofList start (a :: as)).get? 0 = some (start, a) := get?_length start [] a as
      rw [List.length_nil, hfirst, atBoundary, if_neg (by omega), if_pos rfl]

/-- **What stands at an offset**: an entry that starts there, an entry around it, or nothing because
it lies before the first entry or not before the end. -/
theorem lookup_cases (hpos : ∀ a ∈ as, 0 < width a) (start offset : Nat) :
    ((offset < start ∨ start + totalSize width as ≤ offset) ∧
      (ofList start as).lookup offset = .outside) ∨
    (∃ before a behind, as = before ++ a :: behind ∧ offset = start + totalSize width before ∧
      (ofList start as).lookup offset = .found before.length a) ∨
    ∃ before a behind, as = before ++ a :: behind ∧ start + totalSize width before < offset ∧
      offset < start + totalSize width before + width a ∧
      (ofList start as).lookup offset = .inside before.length := by
  by_cases hout : offset < start ∨ start + totalSize width as ≤ offset
  · exact Or.inl ⟨hout, lookup_of_outside hout⟩
  · have hle : start ≤ offset := by omega
    have hlt : offset < start + totalSize width as := by omega
    obtain ⟨before, a, behind, rfl, hlow, hhigh⟩ := exists_entry_around width hle hlt
    refine Or.inr ?_
    rcases Nat.eq_or_lt_of_le hlow with rfl | hlow
    · exact Or.inl ⟨before, a, behind, rfl, rfl, lookup_of_start hpos⟩
    · exact Or.inr ⟨before, a, behind, rfl, hlow, hhigh, lookup_of_inside hpos hlow hhigh⟩

/-- The entry found at an offset is the one that stands there in the list of all entries. -/
theorem found?_lookup_eq_some_iff (hpos : ∀ a ∈ as, 0 < width a) :
    ((ofList start as).lookup offset).found? = some a ↔ (offset, a) ∈ (ofList start as).toList := by
  rw [toList_ofList, mem_zip_offsetsFrom_iff]
  constructor
  · intro h
    rcases lookup_cases hpos start offset with
      ⟨-, hlookup⟩ | ⟨before, a', behind, has, hoffset, hlookup⟩ |
      ⟨before, a', behind, -, -, -, hlookup⟩ <;> rw [hlookup] at h
    · exact absurd h (by simp [Lookup.found?])
    · obtain rfl := Option.some.inj h
      exact ⟨before, behind, has, hoffset⟩
    · exact absurd h (by simp [Lookup.found?])
  · rintro ⟨before, behind, rfl, rfl⟩
    rw [lookup_of_start hpos]
    rfl

/-! ### The three answers -/

/-- An entry is found exactly where it starts. -/
theorem lookup_eq_found_iff (hpos : ∀ a ∈ as, 0 < width a) {i : Nat} :
    (ofList start as).lookup offset = .found i a ↔
      as[i]? = some a ∧ offset = start + totalSize width (as.take i) := by
  constructor
  · intro h
    rcases lookup_cases hpos start offset with
      ⟨-, hlookup⟩ | ⟨before, a', behind, rfl, rfl, hlookup⟩ |
      ⟨before, a', behind, -, -, -, hlookup⟩ <;> rw [hlookup] at h
    · exact absurd h (by simp)
    · obtain ⟨rfl, rfl⟩ := Lookup.found.inj h
      exact ⟨by simp, by rw [List.take_left]⟩
    · exact absurd h (by simp)
  · rintro ⟨hget, rfl⟩
    obtain ⟨before, behind, rfl, rfl⟩ := exists_append_of_getElem? hget
    rw [List.take_left]
    exact lookup_of_start hpos

/-- An offset is inside of an entry exactly when it lies strictly between the two ends of the
entry. -/
theorem lookup_eq_inside_iff (hpos : ∀ a ∈ as, 0 < width a) {i : Nat} :
    (ofList start as).lookup offset = .inside i ↔
      ∃ a, as[i]? = some a ∧ start + totalSize width (as.take i) < offset ∧
        offset < start + totalSize width (as.take i) + width a := by
  constructor
  · intro h
    rcases lookup_cases hpos start offset with ⟨-, hlookup⟩ | ⟨before, a, behind, -, -, hlookup⟩ |
      ⟨before, a, behind, rfl, hlow, hhigh, hlookup⟩ <;> rw [hlookup] at h
    · exact absurd h (by simp)
    · exact absurd h (by simp)
    · obtain rfl := Lookup.inside.inj h
      rw [List.take_left]
      exact ⟨a, by simp, hlow, hhigh⟩
  · rintro ⟨a, hget, hlow, hhigh⟩
    obtain ⟨before, behind, rfl, rfl⟩ := exists_append_of_getElem? hget
    rw [List.take_left] at hlow hhigh
    exact lookup_of_inside hpos hlow hhigh

/-- Nothing stands at an offset exactly when it lies before the first entry or not before the
end. -/
theorem lookup_eq_outside_iff (hpos : ∀ a ∈ as, 0 < width a) :
    (ofList start as).lookup offset = .outside ↔ offset < start ∨
      start + totalSize width as ≤ offset := by
  refine ⟨fun h => ?_, lookup_of_outside⟩
  rcases lookup_cases hpos start offset with ⟨hout, -⟩ | ⟨before, a, behind, -, -, hlookup⟩ |
    ⟨before, a, behind, -, -, -, hlookup⟩
  · exact hout
  · exact absurd (hlookup.symm.trans h) (by simp)
  · exact absurd (hlookup.symm.trans h) (by simp)

/-! ### The whole layout -/

theorem get?_ofList_eq_map (start : Nat) (as : List α) (i : Nat) :
    (ofList start as).get? i = as[i]?.map fun a => (start + totalSize width (as.take i), a) := by
  cases hget : as[i]? with
  | none =>
    have hle := List.getElem?_eq_none_iff.mp hget
    rw [get?_ofList, List.getElem?_eq_none (by simpa using hle), Option.map_none]
  | some a =>
    have hi := (List.getElem?_eq_some_iff.mp hget).1
    rw [get?_ofList, Option.map_some]
    exact List.getElem?_zip_eq_some.mpr ⟨getElem?_offsetsFrom width start hi, hget⟩

/-- The layout after adding entries one after the other. -/
def pushAll (start : Nat) (as : List α) : Layout α := as.foldl push (startingAt start)

theorem pushAll_eq_ofList (h : start + totalSize width as < UInt64.size) :
    pushAll start as = ofList start as := foldl_push h

/-- The next entry starts where the entries so far end. -/
theorem place_pushAll (h : start + totalSize width before < UInt64.size) (a : α) :
    (pushAll start before).place a = (start + totalSize width before,
      pushAll start (before ++ [a])) := by
  have hstop : (pushAll start before).stop = start + totalSize width before := by
    rw [pushAll_eq_ofList h, stop_ofList]
  rw [place, hstop, pushAll, pushAll, List.foldl_append]
  rfl

/-- A stretch that takes so much room. -/
structure Stretch where
  length : Nat
deriving DecidableEq

instance : Width Stretch := ⟨Stretch.length⟩

/-- From half of the offsets on, two stretches that take the other half and one more. -/
def wrappingStretches : List Stretch := [⟨0x7FFFFFFFFFFFFFFF⟩, ⟨2⟩]

end Layout

end ClassImage
