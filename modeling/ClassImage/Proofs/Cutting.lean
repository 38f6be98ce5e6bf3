import Mathlib.Data.List.Infix
import ClassImage.Proofs.Layout

/-!
# What a byte string is cut into

`Reader.cut` takes one piece after the other off a byte string. Which pieces there are is said
without the reader: `stands offset s a` is the relation that the bytes `s` stand for `a` at an
offset, and a `Cutting` is a list of pieces that follow each other and stand for their values.

* `Cuts item stands`: the reader takes off exactly the pieces of the relation.
* `cut_cases`: a byte string either is a cutting, and is cut into it, or it has a cutting in front
  of a rest at which the reader fails, and this is the error.
* `Cutting.prefix_of_stuck`: a cutting in front of a rest with which no piece begins is the longest
  one.
-/

namespace ClassImage

variable {ε α : Type}

/-- Pieces that follow each other from an offset on, each standing for its value where it is. -/
inductive Cutting (stands : Nat → Bytes → α → Prop) : Nat → List (Bytes × α) → Prop where
  | nil (offset : Nat) : Cutting stands offset []
  | cons {offset : Nat} {s : Bytes} {a : α} {pieces : List (Bytes × α)} (hfirst : stands offset s a)
    (hrest : Cutting stands (offset + s.length) pieces) : Cutting stands offset ((s, a) :: pieces)

/-- The bytes of pieces. -/
def joined (pieces : List (Bytes × α)) : Bytes := pieces.flatMap Prod.fst

/-- The values of pieces with the offsets at which they stand, if the first stands at `offset`. -/
def placedFrom (offset : Nat) (pieces : List (Bytes × α)) : List (Nat × α) :=
  (offsetsFrom (fun piece : Bytes × α => piece.1.length) offset pieces).zip (pieces.map Prod.snd)

/-- Where pieces start, and where the last one ends. -/
def boundaries (pieces : List (Bytes × α)) : List Nat :=
  (List.range (pieces.length + 1)).map fun i => (joined (pieces.take i)).length

/-- No piece that stands at the offset is in front of the bytes. -/
def Stuck (stands : Nat → Bytes → α → Prop) (offset : Nat) (rest : Bytes) : Prop :=
  ∀ s a, stands offset s a → ¬ s <+: rest

/-- The reader takes off exactly the pieces that stand for something, with their lengths. -/
structure Cuts (item : Nat → Reader ε (α × Nat)) (stands : Nat → Bytes → α → Prop) : Prop where
  nonempty : ∀ {offset s a}, stands offset s a → s ≠ []
  complete : ∀ {offset s a}, stands offset s a → ∀ rest, item offset (s ++ rest) =
    .ok ((a, s.length), rest)
  sound : ∀ {offset bs a size rest}, item offset bs = .ok ((a, size), rest) →
    ∃ s, bs = s ++ rest ∧ size = s.length ∧ stands offset s a

section Joined

@[simp] theorem joined_nil : joined ([] : List (Bytes × α)) = [] := rfl

@[simp] theorem joined_cons (piece : Bytes × α) (pieces : List (Bytes × α)) :
    joined (piece :: pieces) = piece.1 ++ joined pieces := rfl

@[simp] theorem placedFrom_nil (offset : Nat) : placedFrom offset ([] : List (Bytes × α)) = [] :=
  rfl

@[simp] theorem placedFrom_cons (offset : Nat) (piece : Bytes × α) (pieces : List (Bytes × α)) :
    placedFrom offset (piece :: pieces) =
      (offset, piece.2) :: placedFrom (offset + piece.1.length) pieces := rfl

theorem map_fst_placedFrom (offset : Nat) (pieces : List (Bytes × α)) :
    (placedFrom offset pieces).map Prod.fst = offsetsFrom
      (fun piece => piece.1.length) offset pieces :=
  List.map_fst_zip (by simp)

theorem length_joined (pieces : List (Bytes × α)) :
    (joined pieces).length = totalSize (fun piece => piece.1.length) pieces := by
  induction pieces with
  | nil => rfl
  | cons piece pieces ih => rw [joined_cons, List.length_append, ih, totalSize_cons]

theorem map_snd_placedFrom (offset : Nat) (pieces : List (Bytes × α)) :
    (placedFrom offset pieces).map Prod.snd = pieces.map Prod.snd :=
  List.map_snd_zip (by simp)

theorem boundaries_eq (pieces : List (Bytes × α)) :
    boundaries pieces = (placedFrom 0 pieces).map Prod.fst ++ [(joined pieces).length] := by
  have hstart : ∀ i < pieces.length, ((placedFrom 0 pieces).map Prod.fst)[i]? =
      some (joined (pieces.take i)).length := by
    intro i hi
    rw [map_fst_placedFrom, getElem?_offsetsFrom _ 0 hi, Nat.zero_add, length_joined]
  have hlength : ((placedFrom 0 pieces).map Prod.fst).length = pieces.length := by
    rw [map_fst_placedFrom, length_offsetsFrom]
  refine List.ext_getElem? fun i => ?_
  rw [boundaries, List.getElem?_map]
  rcases Nat.lt_trichotomy i pieces.length with hlt | rfl | hgt
  · rw [List.getElem?_range (by omega), List.getElem?_append_left (by omega),
      hstart i hlt, Option.map_some]
  · rw [List.getElem?_range (by omega), List.getElem?_append_right (by omega),
      hlength, Nat.sub_self, Option.map_some, List.take_length]
    rfl
  · rw [List.getElem?_eq_none (by rw [List.length_range]; omega), Option.map_none,
      List.getElem?_eq_none (by rw [List.length_append, hlength, List.length_singleton]; omega)]

theorem joined_replicate_append (count : Nat) (b : UInt8) (a : α) (pieces : List (Bytes × α)) :
    joined (List.replicate count ([b], a) ++ pieces) = List.replicate count b ++ joined pieces := by
  induction count with
  | zero => rfl
  | succ count ih =>
    rw [List.replicate_succ, List.cons_append, joined_cons, ih, List.replicate_succ]
    rfl

end Joined

namespace Cuts

variable {item : Nat → Reader ε (α × Nat)} {stands : Nat → Bytes → α → Prop}

/-- Two pieces that stand at one offset, one in front of the other, are the same. -/
theorem deterministic (h : Cuts item stands) {offset : Nat} {s s' : Bytes} {a a' : α}
    {rest rest' : Bytes} (hs : stands offset s a) (hs' : stands offset s' a')
    (heq : s ++ rest = s' ++ rest') :
    s = s' ∧ a = a' ∧ rest = rest' := by
  have hread := h.complete hs rest
  rw [heq, h.complete hs' rest'] at hread
  simp only [Except.ok.injEq, Prod.mk.injEq] at hread
  obtain ⟨⟨ha, hlen⟩, hrest⟩ := hread
  subst hrest
  exact ⟨List.append_cancel_right heq, ha.symm, rfl⟩

/-- Where the reader fails, no piece begins. -/
theorem stuck_of_error (h : Cuts item stands) {offset : Nat} {rest : Bytes} {e : ε}
    (he : item offset rest = .error e) : Stuck stands offset rest := by
  intro s a hs hprefix
  obtain ⟨after, rfl⟩ := hprefix
  rw [h.complete hs after] at he
  simp at he

theorem stuck_nil (h : Cuts item stands) (offset : Nat) : Stuck stands offset [] := by
  intro s a hs hprefix
  exact h.nonempty hs (List.prefix_nil.mp hprefix)

end Cuts

/-! ### Cutting from the front -/

namespace Cutting

variable {item : Nat → Reader ε (α × Nat)} {stands : Nat → Bytes → α → Prop} {offset : Nat}
  {pieces pieces' : List (Bytes × α)}

/-- Every cutting of a front part goes on to the one behind which no piece begins. -/
theorem prefix_of_stuck (hcuts : Cuts item stands) (h' : Cutting stands offset pieces') :
    ∀ {pieces} (rest rest' : Bytes), Cutting stands offset pieces →
      joined pieces ++ rest = joined pieces' ++ rest' →
      Stuck stands (offset + (joined pieces).length) rest → pieces' <+: pieces := by
  induction h' with
  | nil offset => intros; exact List.nil_prefix
  | @cons offset s' a' pieces' hfirst' hrest' ih =>
    intro pieces rest rest' h heq hstuck
    cases h with
    | nil =>
      -- The longer cutting would begin where no piece does.
      rw [joined_nil, List.nil_append, joined_cons, List.append_assoc] at heq
      exact absurd ⟨_, heq.symm⟩ (hstuck s' a' hfirst')
    | @cons _ s a pieces hfirst hrest =>
      rw [joined_cons, joined_cons, List.append_assoc, List.append_assoc] at heq
      obtain ⟨rfl, rfl, hafter⟩ := hcuts.deterministic hfirst hfirst' heq
      rw [joined_cons, List.length_append, ← Nat.add_assoc] at hstuck
      exact List.cons_prefix_cons.mpr ⟨rfl, ih rest rest' hrest hafter hstuck⟩

/-- **A byte string has one cutting at most.** -/
theorem eq_of_joined_eq (hcuts : Cuts item stands) (h : Cutting stands offset pieces)
    (h' : Cutting stands offset pieces') (heq : joined pieces = joined pieces') :
    pieces = pieces' := by
  have hle : pieces' <+: pieces :=
    h'.prefix_of_stuck hcuts [] [] h (by rw [heq]) (hcuts.stuck_nil _)
  have hge : pieces <+: pieces' :=
    h.prefix_of_stuck hcuts [] [] h' (by rw [heq]) (hcuts.stuck_nil _)
  exact hge.eq_of_length (Nat.le_antisymm hge.length_le hle.length_le)

/-- Every piece of a cutting stands somewhere. -/
theorem exists_stands (h : Cutting stands offset pieces) {piece : Bytes × α}
    (hmem : piece ∈ pieces) :
    ∃ offset', stands offset' piece.1 piece.2 := by
  induction h with
  | nil => exact absurd hmem List.not_mem_nil
  | cons hstands _ ih =>
    rcases List.mem_cons.mp hmem with rfl | hmem
    · exact ⟨_, hstands⟩
    · exact ih hmem

/-- Pieces of one byte, in front of others. -/
theorem replicate {b : UInt8} {a : α}
    (hstands : ∀ offset, stands offset [b] a) {count : Nat}
    (hrest : Cutting stands (offset + count) pieces) :
    Cutting stands offset (List.replicate count ([b], a) ++ pieces) := by
  induction count generalizing offset with
  | zero => exact hrest
  | succ count ih =>
    rw [List.replicate_succ, List.cons_append]
    refine .cons (hstands offset) (ih ?_)
    rwa [List.length_singleton, Nat.add_assoc, Nat.add_comm 1 count]

end Cutting

/-! ### The reader -/

namespace Reader

variable {item : Nat → Reader ε (α × Nat)} {stands : Nat → Bytes → α → Prop}

/-- What comes out of cutting, by induction on the bound: each piece takes at least one byte, so it
lasts. -/
theorem cutOnto_cases (hcuts : Cuts item stands) :
    ∀ (bound offset : Nat) (done : List (Nat × α)) (bs : Bytes), bs.length ≤ bound →
    (∃ pieces, Cutting stands offset pieces ∧ bs = joined pieces ∧
      cutOnto item bound offset done bs = .ok (done.reverse ++ placedFrom offset pieces)) ∨
    ∃ pieces rest e, Cutting stands offset pieces ∧ bs = joined pieces ++ rest ∧ rest ≠ [] ∧
      item (offset + (joined pieces).length) rest = .error e ∧
      cutOnto item bound offset done bs = .error e := by
  intro bound
  induction bound with
  | zero =>
    intro offset done bs hbound
    obtain rfl := List.length_eq_zero_iff.mp (Nat.le_zero.mp hbound)
    exact Or.inl ⟨[], .nil offset, rfl, by simp [cutOnto]⟩
  | succ bound ih =>
    intro offset done bs hbound
    cases bs with
    | nil => exact Or.inl ⟨[], .nil offset, rfl, by simp [cutOnto]⟩
    | cons b bs =>
      rw [cutOnto]
      cases hread : item offset (b :: bs) with
      | error e =>
        exact Or.inr ⟨[], b :: bs, e, .nil offset, rfl, by simp, by simpa using hread, rfl⟩
      | ok result =>
        obtain ⟨⟨a, size⟩, rest⟩ := result
        obtain ⟨s, hs, rfl, hstands⟩ := hcuts.sound hread
        have hpos := List.length_pos_iff.mpr (hcuts.nonempty hstands)
        have hlength := congrArg List.length hs
        rw [List.length_append] at hlength
        have hrest : rest.length ≤ bound := by omega
        rw [hs]
        rcases ih (offset + s.length) ((offset, a) :: done) rest hrest with
          ⟨pieces, hpieces, rfl, hok⟩ | ⟨pieces, after, e, hpieces, rfl, hne, he, herror⟩
        · refine Or.inl ⟨(s, a) :: pieces, .cons hstands hpieces, rfl, ?_⟩
          simp only [hok]
          simp
        · refine Or.inr ⟨(s, a) :: pieces, after, e, .cons hstands hpieces, ?_, hne, ?_, herror⟩
          · rw [joined_cons, List.append_assoc]
          · rw [joined_cons, List.length_append, ← Nat.add_assoc]
            exact he

/-- **A byte string is cut into its cutting, or the reader fails behind a cutting of a front
part.** -/
theorem cut_cases (hcuts : Cuts item stands) (bs : Bytes) :
    (∃ pieces, Cutting stands 0 pieces ∧ bs = joined pieces ∧
      cut item bs = .ok (placedFrom 0 pieces)) ∨
    ∃ pieces rest e, Cutting stands 0 pieces ∧ bs = joined pieces ++ rest ∧ rest ≠ [] ∧
      item (joined pieces).length rest = .error e ∧ cut item bs = .error e := by
  have h := cutOnto_cases hcuts bs.length 0 [] bs (Nat.le_refl _)
  simp only [List.reverse_nil, List.nil_append, Nat.zero_add] at h
  exact h

/-- The reader with the values of its pieces changed. -/
def mapItem {β : Type} (f : α → β) (item : Nat → Reader ε (α × Nat)) (offset : Nat) :
    Reader ε (β × Nat) :=
  item offset >>= fun result => pure (f result.1, result.2)

theorem cut_mapItem {β : Type} (f : α → β) (item : Nat → Reader ε (α × Nat)) (bs : Bytes) :
    cut (mapItem f item) bs = (cut item bs).map (List.map (Prod.map id f)) := by
  have honto : ∀ (bound offset : Nat) (done : List (Nat × α)) (bs : Bytes),
      cutOnto (mapItem f item) bound offset (done.map (Prod.map id f)) bs =
        (cutOnto item bound offset done bs).map (List.map (Prod.map id f)) := by
    intro bound
    induction bound with
    | zero => intro offset done bs; cases bs <;> simp [cutOnto, Except.map]
    | succ bound ih =>
      intro offset done bs
      cases bs with
      | nil => simp [cutOnto, Except.map]
      | cons b bs =>
        rw [cutOnto, cutOnto, mapItem, bind_apply]
        rcases item offset (b :: bs) with e | ⟨⟨a, size⟩, rest⟩
        · rfl
        · exact ih (offset + size) ((offset, a) :: done) rest
  exact honto bs.length 0 [] bs

theorem cut_joined (hcuts : Cuts item stands) {pieces : List (Bytes × α)}
    (h : Cutting stands 0 pieces) :
    cut item (joined pieces) = .ok (placedFrom 0 pieces) := by
  rcases cut_cases hcuts (joined pieces) with
    ⟨pieces', h', heq, hok⟩ | ⟨pieces', rest, e, h', heq, hne, he, -⟩
  · rw [hok, h.eq_of_joined_eq hcuts h' heq]
  · -- The whole cutting would be a front part of the one behind which the reader fails.
    have hprefix : pieces <+: pieces' :=
      h.prefix_of_stuck hcuts rest [] h' (by rw [List.append_nil, heq])
        (by rw [Nat.zero_add]; exact hcuts.stuck_of_error he)
    obtain ⟨more, rfl⟩ := hprefix
    have hlength := congrArg List.length heq
    simp only [joined, List.flatMap_append, List.length_append] at hlength
    have := List.length_pos_iff.mpr hne
    omega

/-- Items of one byte are taken off one by one. -/
theorem exists_cutOnto_replicate {item : Nat → Reader ε (α × Nat)} {b : UInt8} {a : α}
    (hitem : ∀ offset rest, item offset (b :: rest) = .ok ((a, 1), rest)) (count bound offset : Nat)
    (done : List (Nat × α)) (rest : Bytes) : ∃ done',
      cutOnto item (count + bound) offset done (List.replicate count b ++ rest) =
        cutOnto item bound (offset + count) done' rest := by
  induction count generalizing offset done with
  | zero => exact ⟨done, by rw [Nat.zero_add, Nat.add_zero, List.replicate_zero, List.nil_append]⟩
  | succ count ih =>
    obtain ⟨done', hrest⟩ := ih (offset + 1) ((offset, a) :: done)
    refine ⟨done', ?_⟩
    rw [Nat.succ_add, List.replicate_succ, List.cons_append, cutOnto]
    simp only [hitem]
    rw [hrest, Nat.add_assoc, Nat.add_comm 1 count]

end Reader

end ClassImage
