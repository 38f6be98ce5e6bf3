import ClassImage.Text.ModifiedUtf8
import ClassImage.Proofs.Layout

/-!
# Decoded texts are not longer than their bytes

A code unit takes as many bytes as its size says, one to three (`totalSize_units`), and a character
of UTF-8 takes no more than the units it was read from: a pair of surrogates has six bytes for a
character of four, and a surrogate without its partner has as many as the character that stands for
it (`totalSize_chars`). So decoding never makes a text longer.
-/

namespace ClassImage

/-- The bytes of a text are those of its characters. -/
theorem utf8ByteSize_ofList_eq_totalSize (cs : List Char) :
    (String.ofList cs).utf8ByteSize = totalSize Char.utf8Size cs := by
  induction cs with
  | nil => rfl
  | cons c cs ih =>
    rw [String.ofList_cons, String.utf8ByteSize_append, String.utf8ByteSize_singleton, ih,
      totalSize_cons]

namespace Text.ModifiedUtf8

/-- The number of bytes that a code unit takes at least. -/
def unitSize (u : UInt16) : Nat := if u < 0x80 then 1 else if u < 0x800 then 2 else 3

theorem unitSize_le_three (u : UInt16) : unitSize u ≤ 3 := by
  unfold unitSize
  split
  · decide
  · split <;> decide

/-! ### Bytes and code units -/

theorem unitSize_of_single {a : UInt8} (h : a &&& 0x80 = 0) : unitSize a.toUInt16 ≤ 1 := by
  have hall : ∀ n : Fin 256, UInt8.ofFin n &&& 0x80 = 0 →
      unitSize (UInt8.ofFin n).toUInt16 ≤ 1 := by
    decide +kernel
  exact hall a.toFin h

theorem continuation_lt {b : UInt8} {x : UInt16} (h : continuation? b = some x) :
    x.toNat < 2 ^ 6 := by
  unfold continuation? at h
  split at h
  · obtain rfl := Option.some.inj h
    rw [UInt8.toNat_toUInt16, UInt8.toNat_and]
    exact Nat.and_lt_two_pow _ (by decide)
  · exact absurd h (by simp)

theorem unitSize_of_double {a : UInt8} {x : UInt16} (hx : x.toNat < 2 ^ 6) :
    unitSize ((a &&& 0x1F).toUInt16 <<< 6 ||| x) ≤ 2 := by
  have ha : (a &&& 0x1F).toUInt16.toNat < 2 ^ 5 := by
    rw [UInt8.toNat_toUInt16, UInt8.toNat_and]
    exact Nat.and_lt_two_pow _ (by decide)
  have hlt : ((a &&& 0x1F).toUInt16 <<< 6 ||| x).toNat < 2 ^ 11 := by
    rw [UInt16.toNat_or, UInt16.toNat_shiftLeft]
    refine Nat.or_lt_two_pow ?_ (by omega)
    rw [Nat.shiftLeft_eq]
    refine Nat.lt_of_le_of_lt (Nat.mod_le _ _) ?_
    show _ * 2 ^ 6 < 2 ^ 11
    omega
  have hshort : (a &&& 0x1F).toUInt16 <<< 6 ||| x < 0x800 := UInt16.lt_iff_toNat_lt.mpr hlt
  unfold unitSize
  simp only [if_pos hshort]
  split <;> decide

/-- Code units take no more bytes than they were read from. -/
theorem totalSize_unitsOnto {done us : List UInt16} {bs : Bytes} (h : unitsOnto done bs = some us) :
    totalSize unitSize us ≤ totalSize unitSize done + bs.length := by
  fun_induction unitsOnto done bs with
  | case1 done =>
    obtain rfl := Option.some.inj h
    rw [totalSize_reverse]
    exact Nat.le_add_right _ _
  | case3 done a rest hsingle _ ih =>
    have hsize := unitSize_of_single hsingle
    have hrest := ih h
    simp only [totalSize_cons, List.length_cons] at hrest ⊢
    omega
  | case4 done a _ _ b rest x hx ih =>
    have hsize := unitSize_of_double (a := a) (continuation_lt hx)
    have hrest := ih h
    simp only [totalSize_cons, List.length_cons] at hrest ⊢
    omega
  | case7 done a _ _ _ b c rest x y _ _ ih =>
    have hsize := unitSize_le_three ((a &&& 0x0F).toUInt16 <<< 12 ||| x <<< 6 ||| y)
    have hrest := ih h
    simp only [totalSize_cons, List.length_cons] at hrest ⊢
    omega
  | _ => exact absurd h (by simp)

/-! ### Code units and characters -/

theorem unitSize_of_surrogate {u : UInt16} (h : isHighSurrogate u ∨ isLowSurrogate u) :
    unitSize u = 3 := by
  have hle : 0xD800 ≤ u.toNat := by
    rcases h with h | h <;> simp only [isHighSurrogate, isLowSurrogate, Bool.and_eq_true,
      decide_eq_true_eq, UInt16.le_iff_toNat_le] at h
    · exact h.1
    · exact Nat.le_trans (by decide) h.1
  unfold unitSize
  rw [if_neg, if_neg] <;> rw [UInt16.lt_iff_toNat_lt, Nat.not_lt] <;>
    exact Nat.le_trans (by decide) hle

theorem utf8Size_replacement : replacement.utf8Size = 3 := by decide

/-- Numbers that are no characters become the character zero. -/
theorem val_ofNat_le (n : Nat) : (Char.ofNat n).val.toNat ≤ n := by
  by_cases hvalid : n.isValidChar
  · rw [Char.ofNat, dif_pos hvalid]
    exact Nat.le_refl n
  · rw [Char.ofNat, dif_neg hvalid]
    exact Nat.zero_le n

/-- A character of one unit takes no more bytes in UTF-8 than the unit. -/
theorem utf8Size_ofNat_le (u : UInt16) : (Char.ofNat u.toNat).utf8Size ≤ unitSize u := by
  have hval := val_ofNat_le u.toNat
  have hlt := u.toNat_lt
  unfold Char.utf8Size unitSize
  simp only [UInt32.le_iff_toNat_le, UInt16.lt_iff_toNat_lt, UInt32.toNat_ofNatLT]
  show _ ≤ if u.toNat < 128 then 1 else if u.toNat < 2048 then 2 else 3
  -- A smaller number has no longer encoding, case by case.
  repeat' split
  all_goals omega

/-- Characters take no more bytes than the units they were read from. -/
theorem totalSize_charsOnto (done : List Char) (us : List UInt16) :
    totalSize Char.utf8Size (charsOnto done us) ≤ totalSize Char.utf8Size done +
      totalSize unitSize us := by
  fun_induction charsOnto done us with
  | case1 done =>
    rw [totalSize_reverse]
    exact Nat.le_add_right _ _
  | case2 done u hhigh ih =>
    have hunit := unitSize_of_surrogate (Or.inl hhigh)
    simp only [totalSize_cons, utf8Size_replacement] at ih ⊢
    omega
  | case3 done u hhigh v rest hlow ih =>
    have hfirst := unitSize_of_surrogate (Or.inl hhigh)
    have hsecond := unitSize_of_surrogate (Or.inr hlow)
    have hchar := Char.utf8Size_le_four (pair u v)
    simp only [totalSize_cons] at ih ⊢
    omega
  | case4 done u hhigh v rest _ ih =>
    have hunit := unitSize_of_surrogate (Or.inl hhigh)
    simp only [totalSize_cons, utf8Size_replacement] at ih ⊢
    omega
  | case5 done u rest _ hlow ih =>
    have hunit := unitSize_of_surrogate (Or.inr hlow)
    simp only [totalSize_cons, utf8Size_replacement] at ih ⊢
    omega
  | case6 done u rest _ _ ih =>
    have hchar := utf8Size_ofNat_le u
    simp only [totalSize_cons] at ih ⊢
    omega

/-- **Decoding never makes a text longer**: it has at most as many bytes in UTF-8 as it was read
from. -/
theorem utf8ByteSize_le_of_decode? {bs : Bytes} {text : String} (h : decode? bs = some text) :
    text.utf8ByteSize ≤ bs.length := by
  obtain ⟨us, hus, rfl⟩ := Option.map_eq_some_iff.mp h
  have hunits := totalSize_unitsOnto hus
  have hchars := totalSize_charsOnto [] us
  rw [totalSize_nil, Nat.zero_add] at hunits hchars
  rw [utf8ByteSize_ofList_eq_totalSize]
  exact Nat.le_trans hchars hunits

end Text.ModifiedUtf8

end ClassImage
