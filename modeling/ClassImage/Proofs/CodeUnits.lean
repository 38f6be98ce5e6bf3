import ClassImage.ClassFile.ConstantPool
import ClassImage.Proofs.ModifiedUtf8

/-!
# Texts in modified UTF-8

The format is described here without the decoder, in the two steps in which it is read.

* `Group s`: the bytes `s` stand together for one code unit, `unitOf s`. A byte string has code
  units exactly if it can be divided into groups (`units?_eq_some_iff`).
* `Spells us cs`: the code units `us` stand for the characters `cs`. Every list of code units spells
  exactly one list of characters (`spells_iff`).

So decoding is known completely (`decode?_eq_some_iff`). What is encoded unit by unit is decoded to
the characters that the units spell, and the units of a text spell that text.
-/

namespace ClassImage.Text.ModifiedUtf8

/-! ### Groups of bytes -/

/-- A byte that stands in a group behind the first one. -/
def IsContinuation (b : UInt8) : Prop := 0x80 ≤ b.toNat ∧ b.toNat < 0xC0

/-- The bytes of a code unit: one byte that is not zero, or a first byte that tells how many follow.
A unit need not be written as short as it could be. -/
inductive Group : Bytes → Prop where
  | single {a : UInt8} (hpos : 0 < a.toNat) (hlt : a.toNat < 0x80) : Group [a]
  | double {a b : UInt8} (hle : 0xC0 ≤ a.toNat) (hlt : a.toNat < 0xE0) (hb : IsContinuation b) :
    Group [a, b]
  | triple {a b c : UInt8} (hle : 0xE0 ≤ a.toNat) (hlt : a.toNat < 0xF0) (hb : IsContinuation b)
    (hc : IsContinuation c) : Group [a, b, c]

/-- The code unit of a group: the bits behind those that tell the kind of a byte, put together. -/
def unitOf : Bytes → UInt16
  | [a] => UInt16.ofNat a.toNat
  | [a, b] => UInt16.ofNat ((a.toNat - 0xC0) * 64 + (b.toNat - 0x80))
  | [a, b, c] => UInt16.ofNat ((a.toNat - 0xE0) * 4096 + (b.toNat - 0x80) * 64 + (c.toNat - 0x80))
  | _ => 0

/-- What the leading bits of a byte say about the byte as a number. -/
theorem leading_bits (a : UInt8) : (a &&& 0x80 = 0 ↔ a.toNat < 0x80) ∧
    (a &&& 0xC0 = 0x80 ↔ 0x80 ≤ a.toNat ∧ a.toNat < 0xC0) ∧
    (a &&& 0xE0 = 0xC0 ↔ 0xC0 ≤ a.toNat ∧ a.toNat < 0xE0) ∧
    (a &&& 0xF0 = 0xE0 ↔ 0xE0 ≤ a.toNat ∧ a.toNat < 0xF0) := by
  have hall : ∀ n : Fin 256, (UInt8.ofFin n &&& 0x80 = 0 ↔ n.val < 0x80) ∧
      (UInt8.ofFin n &&& 0xC0 = 0x80 ↔ 0x80 ≤ n.val ∧ n.val < 0xC0) ∧
      (UInt8.ofFin n &&& 0xE0 = 0xC0 ↔ 0xC0 ≤ n.val ∧ n.val < 0xE0) ∧
      (UInt8.ofFin n &&& 0xF0 = 0xE0 ↔ 0xE0 ≤ n.val ∧ n.val < 0xF0) := by
    decide +kernel
  exact hall a.toFin

/-- The bits of a byte under a mask of low bits. -/
theorem toNat_low_bits (a mask : UInt8) (k : Nat) (hmask : mask.toNat = 2 ^ k - 1) :
    (a &&& mask).toUInt16.toNat = a.toNat % 2 ^ k := by
  rw [UInt8.toNat_toUInt16, UInt8.toNat_and, hmask, Nat.and_two_pow_sub_one_eq_mod]

theorem toNat_shiftLeft_of_lt {x k : UInt16} (hk : k.toNat < 16)
    (hx : x.toNat * 2 ^ k.toNat < 2 ^ 16) :
    (x <<< k).toNat = x.toNat * 2 ^ k.toNat := by
  rw [UInt16.toNat_shiftLeft, Nat.mod_eq_of_lt hk, Nat.shiftLeft_eq, Nat.mod_eq_of_lt hx]

/-- Bits are added to a number that has none in their places. -/
theorem toNat_or_of_lt {x y : UInt16} {k q : Nat} (hx : x.toNat = 2 ^ k * q)
    (hy : y.toNat < 2 ^ k) :
    (x ||| y).toNat = x.toNat + y.toNat := by
  rw [UInt16.toNat_or, hx, Nat.two_pow_add_eq_or_of_lt hy]

theorem continuation?_eq_some_iff {b : UInt8} {x : UInt16} :
    continuation? b = some x ↔ IsContinuation b ∧ x.toNat = b.toNat - 0x80 := by
  have hbits := toNat_low_bits b 0x3F 6 rfl
  have hlead := (leading_bits b).2.1
  unfold continuation? IsContinuation
  by_cases hb : b &&& 0xC0 = 0x80
  · have hrange := hlead.mp hb
    rw [if_pos hb, Option.some.injEq, ← UInt16.toNat_inj, hbits]
    constructor
    · intro h
      exact ⟨hrange, by omega⟩
    · rintro ⟨-, h⟩
      omega
  · rw [if_neg hb]
    constructor
    · intro h
      exact absurd h (by simp)
    · rintro ⟨hrange, -⟩
      exact absurd (hlead.mpr hrange) hb

theorem exists_continuation? {b : UInt8} (h : IsContinuation b) :
    ∃ x, continuation? b = some x := by
  obtain ⟨hle, hlt⟩ := h
  refine ⟨UInt16.ofNat (b.toNat - 0x80), continuation?_eq_some_iff.mpr ⟨⟨hle, hlt⟩, ?_⟩⟩
  exact UInt16.toNat_ofNat_of_lt' (show _ < 0x10000 by omega)

/-- The bits of a first byte and of the one behind it. -/
theorem unitOf_double {a b : UInt8} {x : UInt16} (hle : 0xC0 ≤ a.toNat) (hlt : a.toNat < 0xE0)
    (hx : continuation? b = some x) : (a &&& 0x1F).toUInt16 <<< 6 ||| x = unitOf [a, b] := by
  obtain ⟨⟨hb, hb'⟩, hx⟩ := continuation?_eq_some_iff.mp hx
  have hbits := toNat_low_bits a 0x1F 5 rfl
  have hshift : ((a &&& 0x1F).toUInt16 <<< 6).toNat = (a &&& 0x1F).toUInt16.toNat * 2 ^ 6 :=
    toNat_shiftLeft_of_lt (by decide) (by show _ * 2 ^ 6 < _; omega)
  refine UInt16.toNat_inj.mp ?_
  rw [toNat_or_of_lt (hshift.trans (Nat.mul_comm _ _)) (by omega), hshift, hbits, hx, unitOf,
    UInt16.toNat_ofNat_of_lt' (show _ < 0x10000 by omega)]
  omega

/-- The bits of a first byte and of the two behind it. -/
theorem unitOf_triple {a b c : UInt8} {x y : UInt16} (hle : 0xE0 ≤ a.toNat) (hlt : a.toNat < 0xF0)
    (hx : continuation? b = some x) (hy : continuation? c = some y) :
    (a &&& 0x0F).toUInt16 <<< 12 ||| x <<< 6 ||| y = unitOf [a, b, c] := by
  obtain ⟨⟨hb, hb'⟩, hx⟩ := continuation?_eq_some_iff.mp hx
  obtain ⟨⟨hc, hc'⟩, hy⟩ := continuation?_eq_some_iff.mp hy
  have hbits := toNat_low_bits a 0x0F 4 rfl
  have hfirst : ((a &&& 0x0F).toUInt16 <<< 12).toNat = (a &&& 0x0F).toUInt16.toNat * 2 ^ 12 :=
    toNat_shiftLeft_of_lt (by decide) (by show _ * 2 ^ 12 < _; omega)
  have hsecond : (x <<< 6).toNat = x.toNat * 2 ^ 6 :=
    toNat_shiftLeft_of_lt (by decide) (by show _ * 2 ^ 6 < _; omega)
  have hboth : ((a &&& 0x0F).toUInt16 <<< 12 ||| x <<< 6).toNat =
      2 ^ 6 * ((a &&& 0x0F).toUInt16.toNat * 2 ^ 6 + x.toNat) := by
    rw [toNat_or_of_lt (hfirst.trans (Nat.mul_comm _ _)) (by omega), hfirst, hsecond]
    omega
  refine UInt16.toNat_inj.mp ?_
  rw [toNat_or_of_lt hboth (by omega), hboth, hbits, hx, hy, unitOf,
    UInt16.toNat_ofNat_of_lt' (show _ < 0x10000 by omega)]
  omega

/-! ### Bytes and code units -/

/-- A group in front is read first. -/
theorem unitsOnto_group {s : Bytes} (h : Group s) (done : List UInt16) (rest : Bytes) :
    unitsOnto done (s ++ rest) = unitsOnto (unitOf s :: done) rest := by
  cases h with
  | @single a hpos hlt =>
    obtain ⟨hascii, -⟩ := leading_bits a
    have hne : a ≠ 0 := by
      rintro rfl
      exact absurd hpos (by decide)
    have hunit : a.toUInt16 = unitOf [a] := by
      refine UInt16.toNat_inj.mp ?_
      rw [UInt8.toNat_toUInt16, unitOf, UInt16.toNat_ofNat_of_lt' (show _ < 0x10000 by omega)]
    rw [List.cons_append, List.nil_append, unitsOnto.eq_def]
    dsimp only
    rw [if_pos (hascii.mpr hlt), if_neg hne, hunit]
  | @double a b hle hlt hb =>
    obtain ⟨hascii, -, hlead, -⟩ := leading_bits a
    obtain ⟨x, hx⟩ := exists_continuation? hb
    rw [List.cons_append, List.cons_append, List.nil_append, unitsOnto.eq_def]
    dsimp only
    rw [if_neg (by rw [hascii]; omega), if_pos (hlead.mpr ⟨hle, hlt⟩), hx]
    dsimp only
    rw [unitOf_double hle hlt hx]
  | @triple a b c hle hlt hb hc =>
    obtain ⟨hascii, -, hlead, hlead'⟩ := leading_bits a
    obtain ⟨x, hx⟩ := exists_continuation? hb
    obtain ⟨y, hy⟩ := exists_continuation? hc
    rw [List.cons_append, List.cons_append, List.cons_append, List.nil_append, unitsOnto.eq_def]
    dsimp only
    rw [if_neg (by rw [hascii]; omega), if_neg (by rw [hlead]; omega),
      if_pos (hlead'.mpr ⟨hle, hlt⟩), hx, hy]
    dsimp only
    rw [unitOf_triple hle hlt hx hy]

theorem unitsOnto_flatten {groups : List Bytes} (h : ∀ s ∈ groups, Group s) (done : List UInt16) :
    unitsOnto done groups.flatten = some (done.reverse ++ groups.map unitOf) := by
  induction groups generalizing done with
  | nil => rw [List.flatten_nil, unitsOnto, List.map_nil, List.append_nil]
  | cons s groups ih =>
    obtain ⟨hfirst, hrest⟩ := List.forall_mem_cons.mp h
    rw [List.flatten_cons, unitsOnto_group hfirst, ih hrest, List.reverse_cons, List.append_assoc,
      List.singleton_append, List.map_cons]

/-- What has been read consists of groups. -/
theorem exists_groups_of_unitsOnto {done us : List UInt16} {bs : Bytes}
    (h : unitsOnto done bs = some us) :
    ∃ groups : List Bytes, (∀ s ∈ groups, Group s) ∧ groups.flatten = bs := by
  fun_induction unitsOnto done bs with
  | case1 => exact ⟨[], by simp, rfl⟩
  | case3 done a rest hascii hne ih =>
    obtain ⟨groups, hgroups, rfl⟩ := ih h
    have hpos : a.toNat ≠ 0 := fun h0 => hne (UInt8.toNat_inj.mp h0)
    have hgroup : Group [a] := .single (by omega) ((leading_bits a).1.mp hascii)
    exact ⟨[a] :: groups, List.forall_mem_cons.mpr ⟨hgroup, hgroups⟩, rfl⟩
  | case4 done a _ hlead b rest x hx ih =>
    obtain ⟨groups, hgroups, rfl⟩ := ih h
    obtain ⟨hle, hlt⟩ := (leading_bits a).2.2.1.mp hlead
    have hgroup : Group [a, b] := .double hle hlt (continuation?_eq_some_iff.mp hx).1
    exact ⟨[a, b] :: groups, List.forall_mem_cons.mpr ⟨hgroup, hgroups⟩, rfl⟩
  | case7 done a _ _ hlead b c rest x y hy hx ih =>
    obtain ⟨groups, hgroups, rfl⟩ := ih h
    obtain ⟨hle, hlt⟩ := (leading_bits a).2.2.2.mp hlead
    have hgroup : Group [a, b, c] :=
      .triple hle hlt (continuation?_eq_some_iff.mp hx).1 (continuation?_eq_some_iff.mp hy).1
    exact ⟨[a, b, c] :: groups, List.forall_mem_cons.mpr ⟨hgroup, hgroups⟩, rfl⟩
  | _ => exact absurd h (by simp)

/-- **A byte string has code units exactly if it can be divided into groups**, and then they are
those of the groups. -/
theorem units?_eq_some_iff {bs : Bytes} {us : List UInt16} : units? bs = some us ↔
    ∃ groups : List Bytes, (∀ s ∈ groups, Group s) ∧ groups.flatten = bs ∧
      groups.map unitOf = us := by
  constructor
  · intro h
    obtain ⟨groups, hgroups, rfl⟩ := exists_groups_of_unitsOnto h
    have hread := unitsOnto_flatten hgroups []
    exact ⟨groups, hgroups, rfl, Option.some.inj (hread.symm.trans h)⟩
  · rintro ⟨groups, hgroups, rfl, rfl⟩
    exact unitsOnto_flatten hgroups []

/-! ### Code units and characters -/

/-- The first half of a pair. -/
def IsHigh (u : UInt16) : Prop := 0xD800 ≤ u.toNat ∧ u.toNat < 0xDC00

/-- The second half of a pair. -/
def IsLow (u : UInt16) : Prop := 0xDC00 ≤ u.toNat ∧ u.toNat < 0xE000

/-- The characters that code units stand for. A first half right before a second half forms a pair
with it; all other halves stand alone, and each of them is replaced. -/
inductive Spells : List UInt16 → List Char → Prop where
  | nil : Spells [] []
  | scalar {u : UInt16} {us : List UInt16} {c : Char} {cs : List Char} (hhigh : ¬ IsHigh u)
    (hlow : ¬ IsLow u) (hc : c.toNat = u.toNat) (h : Spells us cs) : Spells (u :: us) (c :: cs)
  | paired {u v : UInt16} {us : List UInt16} {c : Char} {cs : List Char} (hhigh : IsHigh u)
    (hlow : IsLow v) (hc : c.toNat = 0x10000 + (u.toNat - 0xD800) * 0x400 + (v.toNat - 0xDC00))
    (h : Spells us cs) :
    Spells (u :: v :: us) (c :: cs)
  | aloneHigh {u : UInt16} {us : List UInt16} {cs : List Char} (hhigh : IsHigh u)
    (hnext : ∀ v, us.head? = some v → ¬ IsLow v) (h : Spells us cs) : Spells (u :: us) ('�' :: cs)
  | aloneLow {u : UInt16} {us : List UInt16} {cs : List Char} (hlow : IsLow u) (h : Spells us cs) :
    Spells (u :: us) ('�' :: cs)

theorem isHighSurrogate_iff {u : UInt16} : isHighSurrogate u = true ↔ IsHigh u := by
  simp [isHighSurrogate, IsHigh, UInt16.le_iff_toNat_le, UInt16.lt_iff_toNat_lt]

theorem isLowSurrogate_iff {u : UInt16} : isLowSurrogate u = true ↔ IsLow u := by
  simp [isLowSurrogate, IsLow, UInt16.le_iff_toNat_le, UInt16.lt_iff_toNat_lt]

theorem toNat_ofNat_of_isValidChar {n : Nat} (h : n.isValidChar) : (Char.ofNat n).toNat = n := by
  rw [Char.ofNat, dif_pos h]
  rfl

theorem toNat_pair {u v : UInt16} (hu : IsHigh u) (hv : IsLow v) :
    (pair u v).toNat = 0x10000 + (u.toNat - 0xD800) * 0x400 + (v.toNat - 0xDC00) := by
  obtain ⟨hu, hu'⟩ := hu
  obtain ⟨hv, hv'⟩ := hv
  exact toNat_ofNat_of_isValidChar (Or.inr ⟨by omega, by omega⟩)

theorem toNat_ofNat_scalar {u : UInt16} (hhigh : ¬ IsHigh u) (hlow : ¬ IsLow u) :
    (Char.ofNat u.toNat).toNat = u.toNat := by
  have hlt := u.toNat_lt
  unfold IsHigh at hhigh
  unfold IsLow at hlow
  exact toNat_ofNat_of_isValidChar (by unfold Nat.isValidChar; omega)

/-- Reading characters follows the rules. -/
theorem exists_spells (done : List Char) (us : List UInt16) :
    ∃ cs, Spells us cs ∧ charsOnto done us = done.reverse ++ cs := by
  fun_induction charsOnto done us with
  | case1 done => exact ⟨[], .nil, by simp⟩
  | case2 done u hhigh ih =>
    obtain ⟨cs, hspells, hrest⟩ := ih
    exact ⟨_, .aloneHigh (isHighSurrogate_iff.mp hhigh) (by simp) hspells,
      by rw [hrest]; simp [replacement]⟩
  | case3 done u hhigh v rest hlow ih =>
    obtain ⟨cs, hspells, hrest⟩ := ih
    have hu := isHighSurrogate_iff.mp hhigh
    have hv := isLowSurrogate_iff.mp hlow
    exact ⟨_, .paired hu hv (toNat_pair hu hv) hspells, by rw [hrest]; simp⟩
  | case4 done u hhigh v rest hlow ih =>
    obtain ⟨cs, hspells, hrest⟩ := ih
    refine ⟨_, .aloneHigh (isHighSurrogate_iff.mp hhigh) ?_ hspells,
      by rw [hrest]; simp [replacement]⟩
    intro w hw
    obtain rfl : v = w := Option.some.inj hw
    rwa [← isLowSurrogate_iff]
  | case5 done u rest _ hlow ih =>
    obtain ⟨cs, hspells, hrest⟩ := ih
    exact ⟨_, .aloneLow (isLowSurrogate_iff.mp hlow) hspells, by rw [hrest]; simp [replacement]⟩
  | case6 done u rest hhigh hlow ih =>
    obtain ⟨cs, hspells, hrest⟩ := ih
    rw [isHighSurrogate_iff] at hhigh
    rw [isLowSurrogate_iff] at hlow
    exact ⟨_, .scalar hhigh hlow (toNat_ofNat_scalar hhigh hlow) hspells, by rw [hrest]; simp⟩

/-- The rules determine the characters. -/
theorem Spells.unique {us : List UInt16} {cs cs' : List Char} (h : Spells us cs)
    (h' : Spells us cs') :
    cs = cs' := by
  have hdisjoint : ∀ {u : UInt16}, IsHigh u → ¬ IsLow u := by
    rintro u ⟨-, hlt⟩ ⟨hle, -⟩
    omega
  induction h generalizing cs' with
  | nil =>
    cases h' with
    | nil => rfl
  | scalar hhigh hlow hc _ ih =>
    cases h' with
    | scalar _ _ hc' h' => rw [Char.toNat_inj.mp (hc.trans hc'.symm), ih h']
    | paired hhigh' => exact absurd hhigh' hhigh
    | aloneHigh hhigh' => exact absurd hhigh' hhigh
    | aloneLow hlow' => exact absurd hlow' hlow
  | paired hhigh hlow hc _ ih =>
    cases h' with
    | scalar hhigh' => exact absurd hhigh hhigh'
    | paired _ _ hc' h' => rw [Char.toNat_inj.mp (hc.trans hc'.symm), ih h']
    | aloneHigh _ hnext => exact absurd hlow (hnext _ rfl)
    | aloneLow hlow' => exact absurd hlow' (hdisjoint hhigh)
  | aloneHigh hhigh hnext _ ih =>
    cases h' with
    | scalar hhigh' => exact absurd hhigh hhigh'
    | paired _ hlow => exact absurd hlow (hnext _ rfl)
    | aloneHigh _ _ h' => rw [ih h']
    | aloneLow hlow => exact absurd hlow (hdisjoint hhigh)
  | aloneLow hlow _ ih =>
    cases h' with
    | scalar _ hlow' => exact absurd hlow hlow'
    | paired hhigh => exact absurd hlow (hdisjoint hhigh)
    | aloneHigh hhigh => exact absurd hlow (hdisjoint hhigh)
    | aloneLow _ h' => rw [ih h']

/-- **Code units spell exactly the characters that are read from them.** -/
theorem spells_iff {us : List UInt16} {cs : List Char} : Spells us cs ↔ cs = chars us := by
  obtain ⟨read, hspells, hread⟩ := exists_spells [] us
  rw [List.reverse_nil, List.nil_append] at hread
  rw [chars, hread]
  constructor
  · intro h
    exact h.unique hspells
  · rintro rfl
    exact hspells

/-! ### Texts -/

/-- **A byte string is decoded exactly if it can be divided into groups**, and then to what their
code units spell. -/
theorem decode?_eq_some_iff {bs : Bytes} {text : String} : decode? bs = some text ↔
    ∃ groups : List Bytes, (∀ s ∈ groups, Group s) ∧ groups.flatten = bs ∧
      Spells (groups.map unitOf) text.toList := by
  rw [decode?, Option.map_eq_some_iff]
  constructor
  · rintro ⟨us, hus, rfl⟩
    obtain ⟨groups, hgroups, hflatten, rfl⟩ := units?_eq_some_iff.mp hus
    exact ⟨groups, hgroups, hflatten, spells_iff.mpr String.toList_ofList⟩
  · rintro ⟨groups, hgroups, hflatten, hspells⟩
    refine ⟨groups.map unitOf, units?_eq_some_iff.mpr ⟨groups, hgroups, hflatten, rfl⟩, ?_⟩
    rw [← spells_iff.mp hspells, String.ofList_toList]

theorem decode?_eq_none_iff {bs : Bytes} : decode? bs = none ↔
    ¬ ∃ groups : List Bytes, (∀ s ∈ groups, Group s) ∧ groups.flatten = bs := by
  rw [← Option.not_isSome_iff_eq_none, not_iff_not, Option.isSome_iff_exists]
  constructor
  · rintro ⟨text, htext⟩
    obtain ⟨groups, hgroups, hflatten, -⟩ := decode?_eq_some_iff.mp htext
    exact ⟨groups, hgroups, hflatten⟩
  · rintro ⟨groups, hgroups, hflatten⟩
    refine ⟨String.ofList (chars (groups.map unitOf)),
      decode?_eq_some_iff.mpr ⟨groups, hgroups, hflatten, ?_⟩⟩
    rw [String.toList_ofList]
    exact spells_iff.mpr rfl

/-! ### Encoding -/

/-- The bytes of a code unit, as few as there can be, but never a zero byte. -/
def encodeUnit (u : UInt16) : Bytes :=
  if u.toNat = 0 then [0xC0, 0x80]
  else if u.toNat < 0x80 then [UInt8.ofNat u.toNat]
  else if u.toNat < 0x800 then [UInt8.ofNat (0xC0 + u.toNat / 64),
    UInt8.ofNat (0x80 + u.toNat % 64)]
  else [UInt8.ofNat (0xE0 + u.toNat / 4096), UInt8.ofNat (0x80 + u.toNat / 64 % 64),
    UInt8.ofNat (0x80 + u.toNat % 64)]

/-- The bytes of code units. -/
def encode (us : List UInt16) : Bytes := us.flatMap encodeUnit

theorem isContinuation_ofNat {n : Nat} (h : n < 64) : IsContinuation (UInt8.ofNat (0x80 + n)) := by
  rw [IsContinuation, UInt8.toNat_ofNat_of_lt' (show _ < 0x100 by omega)]
  omega

/-- The bytes of a code unit are a group for it. -/
theorem group_encodeUnit (u : UInt16) : Group (encodeUnit u) ∧ unitOf (encodeUnit u) = u := by
  have hlt := u.toNat_lt
  rw [← UInt16.toNat_inj]
  unfold encodeUnit
  split
  · rename_i h
    refine ⟨.double (by decide) (by decide) (by unfold IsContinuation; decide), ?_⟩
    rw [h]
    decide
  · split
    · have ha : (UInt8.ofNat u.toNat).toNat = u.toNat :=
        UInt8.toNat_ofNat_of_lt' (show _ < 0x100 by omega)
      refine ⟨.single (by omega) (by omega), ?_⟩
      rw [unitOf, ha, UInt16.toNat_ofNat_of_lt' hlt]
    · split
      · have ha : (UInt8.ofNat (0xC0 + u.toNat / 64)).toNat = 0xC0 + u.toNat / 64 :=
          UInt8.toNat_ofNat_of_lt' (show _ < 0x100 by omega)
        have hb : (UInt8.ofNat (0x80 + u.toNat % 64)).toNat = 0x80 + u.toNat % 64 :=
          UInt8.toNat_ofNat_of_lt' (show _ < 0x100 by omega)
        refine ⟨.double (by omega) (by omega) (isContinuation_ofNat (by omega)), ?_⟩
        rw [unitOf, ha, hb, UInt16.toNat_ofNat_of_lt' (show _ < 0x10000 by omega)]
        omega
      · have ha : (UInt8.ofNat (0xE0 + u.toNat / 4096)).toNat = 0xE0 + u.toNat / 4096 :=
          UInt8.toNat_ofNat_of_lt' (show _ < 0x100 by omega)
        have hb : (UInt8.ofNat (0x80 + u.toNat / 64 % 64)).toNat = 0x80 + u.toNat / 64 % 64 :=
          UInt8.toNat_ofNat_of_lt' (show _ < 0x100 by omega)
        have hc : (UInt8.ofNat (0x80 + u.toNat % 64)).toNat = 0x80 + u.toNat % 64 :=
          UInt8.toNat_ofNat_of_lt' (show _ < 0x100 by omega)
        refine ⟨.triple (by omega) (by omega) (isContinuation_ofNat (by omega))
          (isContinuation_ofNat (by omega)), ?_⟩
        rw [unitOf, ha, hb, hc, UInt16.toNat_ofNat_of_lt' (show _ < 0x10000 by omega)]
        omega

/-- **What is encoded is decoded to the characters that the code units spell.** -/
theorem decode?_encode {us : List UInt16} {cs : List Char} (h : Spells us cs) :
    decode? (encode us) = some (String.ofList cs) := by
  refine decode?_eq_some_iff.mpr ⟨us.map encodeUnit, ?_, List.flatMap_def.symm, ?_⟩
  · intro s hs
    obtain ⟨u, -, rfl⟩ := List.mem_map.mp hs
    exact (group_encodeUnit u).1
  · have hunits : (us.map encodeUnit).map unitOf = us := by
      rw [List.map_map]
      exact List.map_id'' (fun u => (group_encodeUnit u).2) us
    rwa [hunits, String.toList_ofList]

/-- The code units of a character: itself, or a pair if it is too great. -/
def unitsOfChar (c : Char) : List UInt16 :=
  if c.toNat < 0x10000 then [UInt16.ofNat c.toNat]
  else [UInt16.ofNat (0xD800 + (c.toNat - 0x10000) / 0x400),
    UInt16.ofNat (0xDC00 + (c.toNat - 0x10000) % 0x400)]

/-- The code units of a text. -/
def unitsOfText (text : String) : List UInt16 := text.toList.flatMap unitsOfChar

theorem spells_flatMap_unitsOfChar (cs : List Char) : Spells (cs.flatMap unitsOfChar) cs := by
  induction cs with
  | nil => exact .nil
  | cons c cs ih =>
    have hvalid : c.toNat.isValidChar := c.valid
    unfold Nat.isValidChar at hvalid
    rw [List.flatMap_cons, unitsOfChar]
    split
    · -- A character is never a surrogate.
      have hunit : (UInt16.ofNat c.toNat).toNat = c.toNat :=
        UInt16.toNat_ofNat_of_lt' (show _ < 0x10000 by omega)
      refine .scalar ?_ ?_ hunit.symm ih
      · unfold IsHigh
        omega
      · unfold IsLow
        omega
    · have hhigh :=
        UInt16.toNat_ofNat_of_lt' (show 0xD800 + (c.toNat - 0x10000) / 0x400 < 0x10000 by omega)
      have hlow :=
        UInt16.toNat_ofNat_of_lt' (show 0xDC00 + (c.toNat - 0x10000) % 0x400 < 0x10000 by omega)
      refine .paired ?_ ?_ ?_ ih
      · unfold IsHigh
        omega
      · unfold IsLow
        omega
      · omega

theorem spells_unitsOfText (text : String) : Spells (unitsOfText text) text.toList :=
  spells_flatMap_unitsOfChar text.toList

/-! ### Texts of constants -/

/-- The bytes of a text are taken off behind their length, and then decoded. -/
theorem readUtf8_of_length {bs : Bytes} (hlength : bs.length ≤ 0xFFFF) (rest : Bytes) :
    ClassFile.readUtf8 (ByteOrder.big.bytes 2 bs.length ++ (bs ++ rest)) =
      ((decode? bs).elim (throw .invalidText) pure : Reader ClassFile.Fault String) rest := by
  have hcount : (UInt16.ofNat bs.length).toNat = bs.length :=
    UInt16.toNat_ofNat_of_lt' (show _ < 0x10000 by omega)
  have hindex : Reads (fun _ => True) ClassFile.readIndex _ _ :=
    Reads.word16 trivial .big (UInt16.ofNat bs.length)
  have htake : Reads (fun _ : ClassFile.Fault => True) _ bs bs := Reads.take trivial bs
  rw [hcount] at hindex
  rw [ClassFile.readUtf8, Reader.bind_of_ok (hindex.whole _), hcount,
    Reader.bind_of_ok (htake.whole rest)]
  cases decode? bs <;> rfl

theorem readUtf8_eq_invalidText_iff {bs : Bytes} (hlength : bs.length ≤ 0xFFFF) (rest : Bytes) :
    ClassFile.readUtf8 (ByteOrder.big.bytes 2 bs.length ++ (bs ++ rest)) = .error .invalidText ↔
      decode? bs = none := by
  rw [readUtf8_of_length hlength]
  cases decode? bs with
  | none => exact ⟨fun _ => rfl, fun _ => rfl⟩
  | some text =>
    exact ⟨fun h => absurd h (by simp [Reader.pure_apply]), fun h => absurd h (by simp)⟩

/-- **Modified UTF-8 is decoded exactly, and no text gets longer.** Encoded code units are decoded
to the one list of characters that they spell, so every text comes back from the encoding of its
code units. A byte string is refused exactly if it cannot be divided into groups, and as the text of
a constant it is then called invalid. A decoded text takes no more bytes than it was decoded
from. -/
theorem texts_decode_exactly :
    (∀ us, ∃ cs, (∀ cs', Spells us cs' ↔ cs' = cs) ∧ decode? (encode us) =
      some (String.ofList cs)) ∧
    (∀ text, decode? (encode (unitsOfText text)) = some text) ∧
    (∀ bs, decode? bs = none ↔ ¬ ∃ groups : List Bytes, (∀ s ∈ groups, Group s) ∧
      groups.flatten = bs) ∧
    (∀ bs rest, bs.length ≤ 0xFFFF →
      (ClassFile.readUtf8 (ByteOrder.big.bytes 2 bs.length ++ (bs ++ rest)) = .error .invalidText ↔
        decode? bs = none)) ∧
    ∀ bs text, decode? bs = some text → text.utf8ByteSize ≤ bs.length := by
  refine ⟨?_, ?_, ?_, ?_, ?_⟩
  · intro us
    exact ⟨chars us, fun cs' => spells_iff, decode?_encode (spells_iff.mpr rfl)⟩
  · intro text
    rw [decode?_encode (spells_unitsOfText text), String.ofList_toList]
  · intro bs
    exact decode?_eq_none_iff
  · intro bs rest hlength
    exact readUtf8_eq_invalidText_iff hlength rest
  · intro bs text h
    exact utf8ByteSize_le_of_decode? h

/-- A first half alone, a letter, a pair, the unit zero, and two halves in the wrong order. -/
def sampleUnits : List UInt16 := [0xD800, 0x41, 0xD83D, 0xDE00, 0, 0xDC00, 0xD83D]

/-- The sample takes 18 bytes and its text 15, and a byte string that ends inside a group is called
invalid. -/
theorem sampleUnits_decode_exactly :
    encode sampleUnits = [0xED, 0xA0, 0x80, 0x41, 0xED, 0xA0, 0xBD, 0xED, 0xB8, 0x80, 0xC0,
      0x80, 0xED, 0xB0, 0x80, 0xED, 0xA0, 0xBD] ∧
    (∃ cs, (∀ cs', Spells sampleUnits cs' ↔ cs' = cs) ∧ decode? (encode sampleUnits) =
      some (String.ofList cs)) ∧
    decode? (encode sampleUnits) = some "�A😀\x00��" ∧
    "�A😀\x00��".utf8ByteSize ≤ (encode sampleUnits).length ∧
    ClassFile.readUtf8 [0, 3, 0x41, 0xE0, 0xA0, 7, 0, 1] = .error .invalidText := by
  obtain ⟨hspells, -, -, hread, hlength⟩ := texts_decode_exactly
  have hdecode : decode? (encode sampleUnits) = some "�A😀\x00��" := by decide +kernel
  exact ⟨by decide +kernel, hspells sampleUnits, hdecode, hlength _ _ hdecode,
    (hread [0x41, 0xE0, 0xA0] [7, 0, 1] (by decide)).mpr (by decide +kernel)⟩

end ClassImage.Text.ModifiedUtf8
