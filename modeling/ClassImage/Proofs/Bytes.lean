import Mathlib.Algebra.Group.Nat.Defs
import Mathlib.Data.List.Basic
import ClassImage.Bytes

/-!
# Readers against encodings

A format is given twice: by a reader, and by the bytes that stand for a value. This file says what
it means that the two agree, and that agreement passes through the ways in which readers are put
together.

* `Reads ended reader s a`: the reader takes the encoding `s` of `a` off the front of anything, and
  of every proper front part of `s` it reports that the input ended.
* `Returns reader P`: whatever the reader returns, the bytes it took are related to it by `P`.
* `Faults reader P`: whatever the reader reports, it is a fault with `P`.

All of them have a rule for `pure` and one for `>>=`, so a reader written as a `do` block is
followed line by line. The numbers come first: base 256 digits determine a number and are determined
by it.
-/

namespace ClassImage

/-! ### Digits -/

@[simp] theorem length_digits (width n : Nat) : (digits width n).length = width := by
  induction width generalizing n with
  | zero => rfl
  | succ width ih => rw [digits, List.length_cons, ih]

theorem ofDigits_digits (width n : Nat) : ofDigits (digits width n) = n % 256 ^ width := by
  induction width generalizing n with
  | zero => simp [digits, ofDigits, Nat.mod_one]
  | succ width ih =>
    rw [digits, ofDigits, ih, UInt8.toNat_ofNat', Nat.pow_succ' (m := 256)]
    exact (Nat.mod_mul (x := n) (a := 256) (b := 256 ^ width)).symm

theorem ofDigits_lt (bs : Bytes) : ofDigits bs < 256 ^ bs.length := by
  induction bs with
  | nil => decide
  | cons b bs ih =>
    have hb := b.toNat_lt
    rw [ofDigits, List.length_cons, Nat.pow_succ']
    omega

theorem digits_ofDigits (bs : Bytes) : digits bs.length (ofDigits bs) = bs := by
  induction bs with
  | nil => rfl
  | cons b bs ih =>
    have hb := b.toNat_lt
    have hlow : UInt8.ofNat (b.toNat + 256 * ofDigits bs) = b := by
      apply UInt8.toNat_inj.mp
      rw [UInt8.toNat_ofNat']
      omega
    have hhigh : (b.toNat + 256 * ofDigits bs) / 256 = ofDigits bs := by omega
    rw [ofDigits, List.length_cons, digits, hlow, hhigh, ih]

namespace ByteOrder

@[simp] theorem length_bytes (order : ByteOrder) (width n : Nat) :
    (order.bytes width n).length = width := by
  cases order <;> simp [bytes]

theorem toNat_bytes (order : ByteOrder) (width n : Nat) :
    order.toNat (order.bytes width n) = n % 256 ^ width := by
  cases order with
  | little => exact ofDigits_digits width n
  | big => rw [toNat, bytes, List.reverse_reverse, ofDigits_digits]

theorem toNat_lt (order : ByteOrder) (bs : Bytes) : order.toNat bs < 256 ^ bs.length := by
  cases order with
  | little => exact ofDigits_lt bs
  | big => simpa [toNat] using ofDigits_lt bs.reverse

theorem bytes_toNat (order : ByteOrder) (bs : Bytes) :
    order.bytes bs.length (order.toNat bs) = bs := by
  cases order with
  | little => exact digits_ofDigits bs
  | big =>
    have h := digits_ofDigits bs.reverse
    rw [List.length_reverse] at h
    rw [toNat, bytes, h, List.reverse_reverse]

end ByteOrder

/-! ### Results that may fail -/

theorem bind_eq_ok_iff {ε α β : Type} {x : Except ε α} {f : α → Except ε β} {b : β} :
    x >>= f = .ok b ↔ ∃ a, x = .ok a ∧ f a = .ok b := by
  cases x <;> simp [bind, Except.bind]

namespace Reader

variable {ε α β : Type}

/-! ### Running readers -/

theorem pure_apply (a : α) (bs : Bytes) : (pure a : Reader ε α) bs = .ok (a, bs) := rfl

theorem bind_apply (reader : Reader ε α) (next : α → Reader ε β) (bs : Bytes) :
    (reader >>= next) bs =
      match reader bs with
      | .ok (a, rest) => next a rest
      | .error e => .error e := by
  show (reader bs).bind (fun p => next p.1 p.2) = _
  rcases reader bs with e | ⟨a, rest⟩ <;> rfl

theorem throw_apply (e : ε) (bs : Bytes) : (throw e : Reader ε α) bs = .error e := rfl

theorem bind_of_ok {reader : Reader ε α} {next : α → Reader ε β} {bs rest : Bytes} {a : α}
    (h : reader bs = .ok (a, rest)) : (reader >>= next) bs = next a rest := by
  rw [bind_apply, h]

theorem bind_of_error {reader : Reader ε α} {next : α → Reader ε β} {bs : Bytes} {e : ε}
    (h : reader bs = .error e) : (reader >>= next) bs = .error e := by
  rw [bind_apply, h]

/-- A sequence of two readers returns something only if both do, one after the other. -/
theorem exists_of_bind_eq_ok {reader : Reader ε α} {next : α → Reader ε β} {bs rest : Bytes} {b : β}
    (h : (reader >>= next) bs = .ok (b, rest)) :
    ∃ a middle, reader bs = .ok (a, middle) ∧ next a middle = .ok (b, rest) := by
  obtain ⟨⟨a, middle⟩, hr, hnext⟩ := bind_eq_ok_iff.mp h
  exact ⟨a, middle, hr, hnext⟩

theorem repeatOnto_succ (reader : Reader ε α) (n : Nat) (done : List α) :
    repeatOnto reader (n + 1) done = reader >>= fun a => repeatOnto reader n (a :: done) := by
  funext bs
  rw [bind_apply, repeatOnto]
  rcases reader bs with e | ⟨a, rest⟩ <;> rfl

end Reader

/-! ### Encodings are read -/

/-- A reader agrees with the encoding `s` of a value: it takes exactly `s` off the front of what
follows, and of a proper front part of `s` it says that the input ended. -/
structure Reads {ε α : Type} (ended : ε → Prop) (reader : Reader ε α) (s : Bytes) (a : α) :
    Prop where
  whole : ∀ rest, reader (s ++ rest) = .ok (a, rest)
  cut : ∀ front, front <+: s → front ≠ s → ∃ e, reader front = .error e ∧ ended e

namespace Reads

variable {ε α β : Type} {ended : ε → Prop} {reader : Reader ε α} {s s' : Bytes} {a : α} {b : β}

/-- The whole encoding alone is read without a rest. -/
theorem alone (h : Reads ended reader s a) : reader s = .ok (a, []) := by
  have := h.whole []
  rwa [List.append_nil] at this

theorem pure : Reads ended (Pure.pure a) [] a where
  whole _ := rfl
  cut _ hf hne := absurd (List.prefix_nil.mp hf) hne

/-- **Encodings follow each other as readers do.** -/
theorem bind {next : α → Reader ε β} (h : Reads ended reader s a)
    (h' : Reads ended (next a) s' b) : Reads ended (reader >>= next) (s ++ s') b where
  whole rest := by
    rw [List.append_assoc, Reader.bind_of_ok (h.whole (s' ++ rest)), h'.whole rest]
  cut front hf hne := by
    -- Either the first encoding is already incomplete, or only the second one is.
    rcases List.prefix_or_prefix_of_prefix hf (List.prefix_append s s') with hp | ⟨front', rfl⟩
    · by_cases he : front = s
      · subst he
        have hne' : s' ≠ [] := fun h0 => hne (by rw [h0, List.append_nil])
        obtain ⟨e, hr, hend⟩ := h'.cut [] List.nil_prefix hne'.symm
        exact ⟨e, by rw [Reader.bind_of_ok h.alone, hr], hend⟩
      · obtain ⟨e, hr, hend⟩ := h.cut front hp he
        exact ⟨e, Reader.bind_of_error hr, hend⟩
    · have hp : front' <+: s' := (List.prefix_append_right_inj s).mp hf
      have hne' : front' ≠ s' := fun h0 => hne (by rw [h0])
      obtain ⟨e, hr, hend⟩ := h'.cut front' hp hne'
      exact ⟨e, by rw [Reader.bind_of_ok (h.whole front'), hr], hend⟩

/-- A value that is computed from what was read. -/
theorem bind_pure {f : α → β} (h : Reads ended reader s a) :
    Reads ended (reader >>= fun a => Pure.pure (f a)) s (f a) := by
  have hpure : Reads ended (Pure.pure (f a)) [] (f a) := pure
  rw [← List.append_nil s]
  exact h.bind hpure

theorem mapError {ε' : Type} {ended' : ε' → Prop} {f : ε → ε'} (h : Reads ended reader s a)
    (hf : ∀ e, ended e → ended' (f e)) : Reads ended' (reader.mapError f) s a where
  whole rest := by rw [Reader.mapError, h.whole rest]
  cut front hp hne := by
    obtain ⟨e, hr, hend⟩ := h.cut front hp hne
    exact ⟨f e, by rw [Reader.mapError, hr], hf e hend⟩

section Primitive

variable [EndOfInput ε]

theorem byte (hend : ended EndOfInput.endOfInput) (b : UInt8) : Reads ended Reader.byte [b] b where
  whole _ := rfl
  cut front hf hne := by
    rcases List.prefix_cons_iff.mp hf with rfl | ⟨t, rfl, ht⟩
    · exact ⟨_, rfl, hend⟩
    · exact absurd (by rw [List.prefix_nil.mp ht]) hne

theorem take (hend : ended EndOfInput.endOfInput) (bs : Bytes) :
    Reads ended (Reader.take bs.length) bs bs where
  whole rest := by simp [Reader.take]
  cut front hf hne := by
    have hlt : front.length < bs.length :=
      Nat.lt_of_le_of_ne hf.length_le (fun h => hne (hf.eq_of_length h))
    refine ⟨EndOfInput.endOfInput, ?_, hend⟩
    have : ¬ (front.take bs.length).length = bs.length := by
      rw [List.length_take]
      omega
    simp only [Reader.take, if_neg this]

theorem nat (hend : ended EndOfInput.endOfInput) (order : ByteOrder) {width n : Nat}
    (hn : n < 256 ^ width) : Reads ended (Reader.nat order width) (order.bytes width n) n := by
  have h : Reads ended _ _ _ := take hend (order.bytes width n)
  rw [ByteOrder.length_bytes] at h
  have h' := h.bind_pure (f := order.toNat)
  rwa [ByteOrder.toNat_bytes, Nat.mod_eq_of_lt hn] at h'

theorem word16 (hend : ended EndOfInput.endOfInput) (order : ByteOrder) (w : UInt16) :
    Reads ended (Reader.word16 order) (order.bytes 2 w.toNat) w := by
  have h : Reads ended (Reader.nat order 2) _ _ := nat hend order w.toNat_lt
  have h' := h.bind_pure (f := UInt16.ofNat)
  rwa [UInt16.ofNat_toNat] at h'

theorem word32 (hend : ended EndOfInput.endOfInput) (order : ByteOrder) (w : UInt32) :
    Reads ended (Reader.word32 order) (order.bytes 4 w.toNat) w := by
  have h : Reads ended (Reader.nat order 4) _ _ := nat hend order w.toNat_lt
  have h' := h.bind_pure (f := UInt32.ofNat)
  rwa [UInt32.ofNat_toNat] at h'

theorem word64 (hend : ended EndOfInput.endOfInput) (order : ByteOrder) (w : UInt64) :
    Reads ended (Reader.word64 order) (order.bytes 8 w.toNat) w := by
  have h : Reads ended (Reader.nat order 8) _ _ := nat hend order w.toNat_lt
  have h' := h.bind_pure (f := UInt64.ofNat)
  rwa [UInt64.ofNat_toNat] at h'

end Primitive

/-! ### Sequences -/

variable {γ : Type} {encode : γ → Bytes} {f : γ → α}

theorem repeatOnto :
    ∀ (cs : List γ) (done : List α), (∀ c ∈ cs, Reads ended reader (encode c) (f c)) →
    Reads ended (Reader.repeatOnto reader cs.length done) (cs.flatMap encode)
      (done.reverse ++ cs.map f) := by
  intro cs
  induction cs with
  | nil =>
    intro done _
    rw [List.map_nil, List.append_nil]
    exact pure
  | cons c cs ih =>
    intro done h
    have hnext := ih (f c :: done) (fun b hb => h b (List.mem_cons_of_mem c hb))
    rw [List.reverse_cons, List.append_assoc, List.singleton_append] at hnext
    rw [List.length_cons, Reader.repeatOnto_succ, List.flatMap_cons]
    exact (h c (List.mem_cons_self)).bind hnext

theorem exactly {cs : List γ} (h : ∀ c ∈ cs, Reads ended reader (encode c) (f c)) :
    Reads ended (Reader.exactly cs.length reader) (cs.flatMap encode) (cs.map f) := by
  exact repeatOnto cs [] h

theorem counted [EndOfInput ε] (hend : ended EndOfInput.endOfInput) (order : ByteOrder)
    {cs : List γ} (hlen : cs.length ≤ 0xFFFF) (h : ∀ c ∈ cs, Reads ended reader (encode c) (f c)) :
    Reads ended (Reader.counted order reader) (order.bytes 2 cs.length ++ cs.flatMap encode)
      (cs.map f) := by
  have hcount : (UInt16.ofNat cs.length).toNat = cs.length := by
    rw [UInt16.toNat_ofNat', Nat.mod_eq_of_lt (by omega)]
  have hword : Reads ended _ _ _ := word16 hend order (UInt16.ofNat cs.length)
  have hitems := exactly h
  rw [hcount] at hword
  refine hword.bind ?_
  rwa [hcount]

end Reads

/-! ### What is read was encoded -/

/-- Whatever the reader returns, the bytes that it took are related to it by `P`. -/
def Returns {ε α : Type} (reader : Reader ε α) (P : α → Bytes → Prop) : Prop :=
  ∀ bs a rest, reader bs = .ok (a, rest) → ∃ s, bs = s ++ rest ∧ P a s

namespace Returns

variable {ε α β : Type} {reader : Reader ε α} {P Q : α → Bytes → Prop} {a : α}

theorem mono (h : Returns reader P) (hPQ : ∀ a s, P a s → Q a s) : Returns reader Q := by
  intro bs a rest hr
  obtain ⟨s, hs, hP⟩ := h bs a rest hr
  exact ⟨s, hs, hPQ a s hP⟩

theorem pure (h : P a []) : Returns (Pure.pure a : Reader ε α) P := by
  intro bs b rest hr
  obtain ⟨rfl, rfl⟩ : a = b ∧ bs = rest := by simpa [Reader.pure_apply] using hr
  exact ⟨[], rfl, h⟩

theorem throw (e : ε) : Returns (MonadExcept.throw e : Reader ε α) P := by
  intro bs b rest hr
  exact absurd hr (by simp [Reader.throw_apply])

/-- **What two readers take follows each other.** -/
theorem bind {next : α → Reader ε β} {R : β → Bytes → Prop} (h : Returns reader P)
    (h' : ∀ a s, P a s → Returns (next a) (fun b s' => R b (s ++ s'))) :
    Returns (reader >>= next) R := by
  intro bs b rest hr
  obtain ⟨a, middle, hr₁, hr₂⟩ := Reader.exists_of_bind_eq_ok hr
  obtain ⟨s, rfl, hP⟩ := h bs a middle hr₁
  obtain ⟨s', rfl, hR⟩ := h' a s hP middle b rest hr₂
  exact ⟨s ++ s', by rw [List.append_assoc], hR⟩

theorem mapError {ε' : Type} {f : ε → ε'} (h : Returns reader P) :
    Returns (reader.mapError f) P := by
  intro bs a rest hr
  rw [Reader.mapError] at hr
  cases hb : reader bs with
  | error e => rw [hb] at hr; exact absurd hr (by simp)
  | ok p =>
    rw [hb] at hr
    obtain rfl : p = (a, rest) := by simpa using hr
    exact h bs a rest hb

section Primitive

variable [EndOfInput ε]

theorem byte : Returns (Reader.byte : Reader ε UInt8) (fun b s => s = [b]) := by
  intro bs b rest hr
  cases bs with
  | nil => exact absurd hr (by simp [Reader.byte])
  | cons c bs =>
    obtain ⟨rfl, rfl⟩ : c = b ∧ bs = rest := by simpa [Reader.byte] using hr
    exact ⟨[c], rfl, rfl⟩

theorem take (n : Nat) :
    Returns (Reader.take n : Reader ε Bytes) (fun a s => s = a ∧ a.length = n) := by
  intro bs a rest hr
  by_cases hn : (bs.take n).length = n
  · obtain ⟨rfl, rfl⟩ : bs.take n = a ∧ bs.drop n = rest := by simpa [Reader.take, hn] using hr
    exact ⟨bs.take n, (List.take_append_drop n bs).symm, rfl, hn⟩
  · exact absurd hr (by simp only [Reader.take, if_neg hn]; simp)

theorem nat (order : ByteOrder) (width : Nat) : Returns (Reader.nat order width : Reader ε Nat)
    (fun n s => s = order.bytes width n ∧ n < 256 ^ width) := by
  refine (take width).bind fun a s ⟨hs, hlen⟩ => pure ?_
  have hbytes := order.bytes_toNat a
  have hlt := order.toNat_lt a
  rw [hlen] at hbytes hlt
  rw [List.append_nil, hs]
  exact ⟨hbytes.symm, hlt⟩

theorem word16 (order : ByteOrder) : Returns (Reader.word16 order : Reader ε UInt16)
    (fun w s => s = order.bytes 2 w.toNat) := by
  refine (nat order 2).bind fun n s ⟨hs, hn⟩ => pure ?_
  have hlt : n < 2 ^ 16 := hn
  rw [List.append_nil, hs, UInt16.toNat_ofNat', Nat.mod_eq_of_lt hlt]

theorem word32 (order : ByteOrder) : Returns (Reader.word32 order : Reader ε UInt32)
    (fun w s => s = order.bytes 4 w.toNat) := by
  refine (nat order 4).bind fun n s ⟨hs, hn⟩ => pure ?_
  have hlt : n < 2 ^ 32 := hn
  rw [List.append_nil, hs, UInt32.toNat_ofNat', Nat.mod_eq_of_lt hlt]

theorem word64 (order : ByteOrder) : Returns (Reader.word64 order : Reader ε UInt64)
    (fun w s => s = order.bytes 8 w.toNat) := by
  refine (nat order 8).bind fun n s ⟨hs, hn⟩ => pure ?_
  have hlt : n < 2 ^ 64 := hn
  rw [List.append_nil, hs, UInt64.toNat_ofNat', Nat.mod_eq_of_lt hlt]

end Primitive

/-! ### Sequences -/

/-- Each value comes from something that was encoded. -/
theorem repeatOnto_map {γ : Type} {encode : γ → Bytes} {f : γ → α} {good : γ → Prop}
    (h : Returns reader (fun a s => ∃ c, s = encode c ∧ a = f c ∧ good c)) :
    ∀ (n : Nat) (done : List α), Returns (Reader.repeatOnto reader n done)
      (fun all s => ∃ cs : List γ, all = done.reverse ++ cs.map f ∧
      cs.length = n ∧ s = cs.flatMap encode ∧ ∀ c ∈ cs, good c) := by
  intro n
  induction n with
  | zero =>
    intro done
    exact pure ⟨[], by simp⟩
  | succ n ih =>
    intro done bs all rest hr
    rw [Reader.repeatOnto] at hr
    cases hb : reader bs with
    | error e => rw [hb] at hr; exact absurd hr (by simp)
    | ok p =>
      obtain ⟨a, middle⟩ := p
      rw [hb] at hr
      obtain ⟨s, rfl, c, rfl, rfl, hgood⟩ := h bs a middle hb
      obtain ⟨s', rfl, cs, rfl, rfl, rfl, hcs⟩ := ih (f c :: done) middle all rest hr
      refine ⟨encode c ++ cs.flatMap encode, by rw [List.append_assoc], c :: cs, ?_, rfl, rfl, ?_⟩
      · rw [List.reverse_cons, List.append_assoc, List.singleton_append, List.map_cons]
      · exact List.forall_mem_cons.mpr ⟨hgood, hcs⟩

theorem exactly_map {γ : Type} {encode : γ → Bytes} {f : γ → α} {good : γ → Prop} (n : Nat)
    (h : Returns reader (fun a s => ∃ c, s = encode c ∧ a = f c ∧ good c)) :
    Returns (Reader.exactly n reader)
      (fun as s => ∃ cs : List γ, as = cs.map f ∧ cs.length = n ∧ s = cs.flatMap encode ∧
        ∀ c ∈ cs, good c) :=
  repeatOnto_map h n []

theorem exactly {encode : α → Bytes} {good : α → Prop} (n : Nat)
    (h : Returns reader (fun a s => s = encode a ∧ good a)) :
    Returns (Reader.exactly n reader)
      (fun as s => as.length = n ∧ s = as.flatMap encode ∧ ∀ a ∈ as, good a) := by
  have hid : Returns reader (fun a s => ∃ c, s = encode c ∧ a = id c ∧ good c) :=
    h.mono fun a s hs => ⟨a, hs.1, rfl, hs.2⟩
  refine (exactly_map n hid).mono ?_
  rintro all s ⟨as, rfl, hlen, hs, has⟩
  rw [List.map_id]
  exact ⟨hlen, hs, has⟩

theorem counted [EndOfInput ε] (order : ByteOrder) {encode : α → Bytes} {good : α → Prop}
    (h : Returns reader (fun a s => s = encode a ∧ good a)) :
    Returns (Reader.counted order reader) (fun as s => s =
      order.bytes 2 as.length ++ as.flatMap encode ∧
      as.length ≤ 0xFFFF ∧ ∀ a ∈ as, good a) := by
  refine (word16 order).bind fun n s hs => (exactly n.toNat h).mono ?_
  rintro as s' ⟨hlen, hs', has⟩
  have hn := n.toNat_lt
  exact ⟨by rw [hs, hs', hlen], by omega, has⟩

end Returns

/-! ### The faults of a reader -/

/-- Whatever fault the reader reports, it is one of these. -/
def Faults {ε α : Type} (reader : Reader ε α) (P : ε → Prop) : Prop :=
  ∀ bs e, reader bs = .error e → P e

namespace Faults

variable {ε α β : Type} {reader : Reader ε α} {P : ε → Prop}

theorem pure (a : α) : Faults (Pure.pure a : Reader ε α) P := by
  intro bs e he
  exact absurd he (by simp [Reader.pure_apply])

theorem throw {e : ε} (h : P e) : Faults (MonadExcept.throw e : Reader ε α) P := by
  intro bs e' he
  obtain rfl := Except.error.inj he
  exact h

/-- **What two readers in a row report, one of them does.** -/
theorem bind {next : α → Reader ε β} (h : Faults reader P) (h' : ∀ a, Faults (next a) P) :
    Faults (reader >>= next) P := by
  intro bs e he
  cases hfirst : reader bs with
  | error e' =>
    rw [Reader.bind_of_error hfirst] at he
    obtain rfl := Except.error.inj he
    exact h bs _ hfirst
  | ok p =>
    rw [Reader.bind_of_ok hfirst] at he
    exact h' p.1 p.2 e he

theorem exactly (h : Faults reader P) (n : Nat) : Faults (Reader.exactly n reader) P := by
  have honto : ∀ (n : Nat) (done : List α), Faults (Reader.repeatOnto reader n done) P := by
    intro n
    induction n with
    | zero =>
      intro done
      exact pure _
    | succ n ih =>
      intro done
      rw [Reader.repeatOnto_succ]
      exact h.bind fun a => ih (a :: done)
  exact honto n []

section Primitive

variable [EndOfInput ε]

theorem byte (hend : P EndOfInput.endOfInput) : Faults (Reader.byte : Reader ε UInt8) P := by
  intro bs e he
  cases bs with
  | nil =>
    obtain rfl := Except.error.inj he
    exact hend
  | cons b bs => exact absurd he (by simp [Reader.byte])

theorem take (hend : P EndOfInput.endOfInput) (n : Nat) :
    Faults (Reader.take n : Reader ε Bytes) P := by
  intro bs e he
  by_cases hn : (bs.take n).length = n
  · exact absurd he (by simp only [Reader.take, if_pos hn]; simp)
  · rw [Reader.take, if_neg hn] at he
    obtain rfl := Except.error.inj he
    exact hend

theorem nat (hend : P EndOfInput.endOfInput) (order : ByteOrder) (width : Nat) :
    Faults (Reader.nat order width : Reader ε Nat) P :=
  (take hend width).bind fun _ => pure _

theorem word16 (hend : P EndOfInput.endOfInput) (order : ByteOrder) :
    Faults (Reader.word16 order : Reader ε UInt16) P :=
  (nat hend order 2).bind fun _ => pure _

theorem word32 (hend : P EndOfInput.endOfInput) (order : ByteOrder) :
    Faults (Reader.word32 order : Reader ε UInt32) P :=
  (nat hend order 4).bind fun _ => pure _

theorem word64 (hend : P EndOfInput.endOfInput) (order : ByteOrder) :
    Faults (Reader.word64 order : Reader ε UInt64) P :=
  (nat hend order 8).bind fun _ => pure _

end Primitive

end Faults

end ClassImage
