import ClassImage.Bytecode.Decode
import ClassImage.ClassFile.Basic
import ClassImage.Proofs.Bytes

/-!
# Decoded operations fill the code

Operations that are cut off the code one after the other start at increasing offsets, and the bounds
of a table switch fit its cases. The length that is returned with an operation is the number of
bytes that it was read from (`sized_read`), so the operations are found where they start, and the
code ends where the last one does.

In code whose offsets are 32-bit numbers nothing wraps around (`decode_of_cut`), and the offsets of
the operations increase up to the length of the code (`pairwise_offsets`). The code of a method is
that short (`length_bytes_of_code`).
-/

namespace ClassImage

/-! ### What readers return -/

/-- Whatever the reader returns satisfies `P`. -/
def Yields {ε α : Type} (reader : Reader ε α) (P : α → Prop) : Prop :=
  ∀ bs a rest, reader bs = .ok (a, rest) → P a

namespace Yields

variable {ε α β : Type} {reader : Reader ε α} {P : α → Prop}

theorem pure {a : α} (h : P a) : Yields (Pure.pure a : Reader ε α) P := by
  intro bs b rest hr
  obtain ⟨rfl, -⟩ : a = b ∧ bs = rest := by simpa [Reader.pure_apply] using hr
  exact h

theorem throw (e : ε) : Yields (MonadExcept.throw e : Reader ε α) P := by
  intro bs b rest hr
  exact absurd hr (by simp [Reader.throw_apply])

theorem bind {next : α → Reader ε β} {Q : β → Prop} (h : Yields reader P)
    (h' : ∀ a, P a → Yields (next a) Q) : Yields (reader >>= next) Q := by
  intro bs b rest hr
  obtain ⟨a, middle, hr₁, hr₂⟩ := Reader.exists_of_bind_eq_ok hr
  exact h' a (h bs a middle hr₁) middle b rest hr₂

/-- What comes last decides, if nothing is asked of the rest. -/
theorem after {next : α → Reader ε β} {Q : β → Prop} (h : ∀ a, Yields (next a) Q) :
    Yields (reader >>= next) Q := by
  have hany : Yields reader fun _ => True := fun _ _ _ _ => trivial
  exact hany.bind fun a _ => h a

theorem mapError {ε' : Type} {f : ε → ε'} (h : Yields reader P) : Yields (reader.mapError f) P := by
  intro bs a rest hr
  rw [Reader.mapError] at hr
  cases hb : reader bs with
  | error e => rw [hb] at hr; exact absurd hr (by simp)
  | ok p =>
    rw [hb] at hr
    obtain rfl : p = (a, rest) := by simpa using hr
    exact h bs a rest hb

theorem length_take [EndOfInput ε] (n : Nat) :
    Yields (Reader.take n : Reader ε Bytes) fun bytes => bytes.length = n := by
  intro bs bytes rest hr
  obtain ⟨s, -, hs⟩ := Returns.take n bs bytes rest hr
  exact hs.2

theorem length_repeatOnto (n : Nat) (done : List α) :
    Yields (Reader.repeatOnto reader n done) fun as => as.length = done.length + n := by
  induction n generalizing done with
  | zero => exact pure (by simp)
  | succ n ih =>
    intro bs as rest hr
    rw [Reader.repeatOnto] at hr
    cases hb : reader bs with
    | error e => rw [hb] at hr; exact absurd hr (by simp)
    | ok p =>
      rw [hb] at hr
      have := ih (p.1 :: done) p.2 as rest hr
      rw [List.length_cons] at this
      omega

theorem length_exactly (n : Nat) : Yields (Reader.exactly n reader) fun as => as.length = n :=
  fun bs as rest hr => by simpa using length_repeatOnto n [] bs as rest hr

end Yields

/-- A reader that takes so many bytes, whatever it returns. -/
def Takes {ε α : Type} (reader : Reader ε α) (n : Nat) : Prop :=
  Returns reader fun _ s => s.length = n

/-- A reader that returns the number of bytes that it takes, together with `base` bytes taken
before. -/
def Sized {ε α : Type} (base : Nat) (reader : Reader ε (α × Nat)) : Prop :=
  Returns reader fun result s => result.2 = base + s.length

namespace Takes

variable {ε α β : Type} {reader : Reader ε α} {n m : Nat}

theorem pure (a : α) : Takes (Pure.pure a : Reader ε α) 0 := Returns.pure rfl

theorem bind {next : α → Reader ε β} (h : Takes reader n) (h' : ∀ a, Takes (next a) m) :
    Takes (reader >>= next) (n + m) := by
  refine Returns.bind h fun a s hs => (h' a).mono fun b s' hs' => ?_
  rw [List.length_append, hs, hs']

/-- What is computed from what was read takes nothing more. -/
theorem bind_pure {f : α → β} (h : Takes reader n) :
    Takes (reader >>= fun a => Pure.pure (f a)) n :=
  h.bind fun a => pure (f a)

theorem byte [EndOfInput ε] : Takes (Reader.byte : Reader ε UInt8) 1 := by
  refine Returns.byte.mono fun b s hs => ?_
  rw [hs, List.length_singleton]

theorem take [EndOfInput ε] (n : Nat) : Takes (Reader.take n : Reader ε Bytes) n := by
  refine (Returns.take n).mono fun bytes s hs => ?_
  rw [hs.1, hs.2]

theorem word16 [EndOfInput ε] (order : ByteOrder) :
    Takes (Reader.word16 order : Reader ε UInt16) 2 := by
  refine (Returns.word16 order).mono fun w s hs => ?_
  rw [hs, ByteOrder.length_bytes]

theorem word32 [EndOfInput ε] (order : ByteOrder) :
    Takes (Reader.word32 order : Reader ε UInt32) 4 := by
  refine (Returns.word32 order).mono fun w s hs => ?_
  rw [hs, ByteOrder.length_bytes]

theorem repeatOnto (h : Takes reader n) (count : Nat) (done : List α) :
    Takes (Reader.repeatOnto reader count done) (n * count) := by
  induction count generalizing done with
  | zero => exact pure _
  | succ count ih =>
    rw [Reader.repeatOnto_succ, Nat.mul_succ, Nat.add_comm]
    exact h.bind fun a => ih (a :: done)

theorem exactly (h : Takes reader n) (count : Nat) :
    Takes (Reader.exactly count reader) (n * count) :=
  h.repeatOnto count []

end Takes

namespace Sized

variable {ε α β : Type} {base n : Nat}

theorem pure {a : α} (h : n = base) : Sized base (Pure.pure (a, n) : Reader ε (α × Nat)) := by
  refine Returns.pure ?_
  rw [h, List.length_nil, Nat.add_zero]

theorem throw (e : ε) : Sized base (MonadExcept.throw e : Reader ε (α × Nat)) := Returns.throw e

/-- What follows an error is not reached. -/
theorem throw_bind (e : ε) {next : β → Reader ε (α × Nat)} :
    Sized base (MonadExcept.throw e >>= next) :=
  Returns.bind (Returns.throw (P := fun _ _ => False) e) fun _ _ h => h.elim

theorem bind {reader : Reader ε β} {next : β → Reader ε (α × Nat)} (h : Takes reader n)
    (h' : ∀ b, Sized (base + n) (next b)) : Sized base (reader >>= next) := by
  refine Returns.bind h fun b s hs => (h' b).mono fun result s' hs' => ?_
  rw [hs', List.length_append, hs, Nat.add_assoc]

end Sized

namespace Bytecode

open ClassFile (Fault LineNumber)

theorem takes_landing (offset : Nat) (distance : Int) :
    Takes (liftM (landing offset distance) : Reader Fault Nat) 0 := by
  cases hlanding : landing offset distance with
  | error fault => exact Returns.throw fault
  | ok target => exact Takes.pure target

theorem takes_readInt8 : Takes readInt8 1 := Takes.byte.bind_pure

theorem takes_readInt16 : Takes readInt16 2 := (Takes.word16 .big).bind_pure

theorem takes_readInt32 : Takes readInt32 4 := (Takes.word32 .big).bind_pure

theorem takes_readTarget (offset : Nat) : Takes (readTarget offset) 4 :=
  takes_readInt32.bind fun distance => takes_landing offset distance.toInt

theorem takes_readSlot : Takes readSlot 2 := Takes.word16 .big

theorem sized_tableSwitch (offset : Nat) : Sized 1 (readTableSwitch offset) := by
  refine .bind (Takes.take _) fun _ => .bind (takes_readTarget offset) fun default =>
    .bind takes_readInt32 fun low => .bind takes_readInt32 fun high => ?_
  dsimp only
  split
  · exact .throw_bind _
  · exact .bind ((takes_readTarget offset).exactly _) fun targets => .pure rfl

theorem sized_lookupSwitch (offset : Nat) : Sized 1 (readLookupSwitch offset) := by
  have hcase : Takes (do
      let key ← readInt32
      let target ← readTarget offset
      return (key, target)) 8 :=
    takes_readInt32.bind fun key => (takes_readTarget offset).bind_pure
  refine .bind (Takes.take _) fun _ => .bind (takes_readTarget offset) fun default =>
    .bind takes_readInt32 fun count => ?_
  dsimp only
  split
  · exact .throw_bind _
  · exact .bind (hcase.exactly _) fun cases => .pure rfl

theorem sized_wide (offset : Nat) : Sized 1 (readWide offset) := by
  refine .bind Takes.byte fun opcode => ?_
  split
  · exact .bind (Takes.word16 .big) fun _ => .pure rfl
  · exact .bind (Takes.word16 .big) fun _ => .bind takes_readInt16 fun _ => .pure rfl
  · exact .throw _

/-- **The length of an operation is the number of its bytes.** -/
theorem sized_read (offset : Nat) (form : Form) : Sized 1 (form.read offset) := by
  cases form with
  | plain | intConst | implicitLocal => exact .pure rfl
  | bytePush => exact .bind takes_readInt8 fun _ => .pure rfl
  | shortPush => exact .bind takes_readInt16 fun _ => .pure rfl
  | loadNear | localVar | newArray => exact .bind Takes.byte fun _ => .pure rfl
  | load | field | onClass => exact .bind takes_readSlot fun _ => .pure rfl
  | increment => exact .bind Takes.byte fun _ => .bind takes_readInt8 fun _ => .pure rfl
  | branch =>
    exact .bind takes_readInt16 fun distance => .bind (takes_landing offset distance.toInt)
      fun _ => .pure rfl
  | wideBranch => exact .bind (takes_readTarget offset) fun _ => .pure rfl
  | tableSwitch => exact sized_tableSwitch offset
  | lookupSwitch => exact sized_lookupSwitch offset
  | wide => exact sized_wide offset
  | invokeDynamic =>
    exact .bind takes_readSlot fun _ => .bind (Takes.word16 .big) fun _ => .pure rfl
  | newMultiArray => exact .bind takes_readSlot fun _ => .bind Takes.byte fun _ => .pure rfl
  | invoke invocation =>
    cases invocation with
    | virtual | special | static => exact .bind takes_readSlot fun _ => .pure rfl
    | interface =>
      exact .bind takes_readSlot fun _ => .bind Takes.byte fun _ =>
        .bind Takes.byte fun _ => .pure rfl

theorem sized_readChecked (length offset : Nat) : Sized 0 (readChecked length offset) := by
  have hread : Sized 0 (readOp offset) := by
    refine .bind Takes.byte fun opcode => ?_
    split
    · exact sized_read offset _
    · exact .throw _
  refine Returns.bind hread.mapError fun result s hs => ?_
  obtain ⟨op, size⟩ := result
  dsimp only
  split
  · exact Returns.throw _
  · refine Returns.pure ?_
    rw [List.append_nil]
    exact hs

/-! ### What is known of an operation -/

/-- The last key of a table switch is an int. -/
def Op.Bounded : Op → Prop
  | .tableSwitch _ low targets => ∃ high : Int32, high.toInt = low.toInt + targets.length - 1
  | _ => True

/-- What is known of an operation and its length after they were read. -/
def ReadOp (result : Op × Nat) : Prop := result.1.Bounded ∧ 0 < result.2

theorem yields_tableSwitch (offset : Nat) : Yields (readTableSwitch offset) ReadOp := by
  refine Yields.after fun _ => Yields.after fun default => Yields.after fun low =>
    Yields.after fun high => ?_
  split
  · exact (Yields.throw (P := fun _ => False) _).bind fun _ h => h.elim
  · rename_i hle
    rw [Int32.lt_iff_toInt_lt] at hle
    refine (Yields.length_exactly _).bind fun targets hlen => Yields.pure ⟨⟨high, ?_⟩, ?_⟩
    · rw [hlen]
      omega
    · show 0 < 1 + padding offset + 12 + _
      omega

theorem yields_lookupSwitch (offset : Nat) : Yields (readLookupSwitch offset) ReadOp := by
  refine Yields.after fun _ => Yields.after fun default => Yields.after fun count => ?_
  split
  · exact (Yields.throw (P := fun _ => False) _).bind fun _ h => h.elim
  · refine Yields.after fun cases => Yields.pure ⟨trivial, ?_⟩
    show 0 < 1 + padding offset + 8 + _
    omega

theorem yields_wide (offset : Nat) : Yields (readWide offset) ReadOp := by
  refine Yields.after fun opcode => ?_
  split
  · exact Yields.after fun _ => Yields.pure ⟨trivial, Nat.succ_pos _⟩
  · exact Yields.after fun _ => Yields.after fun _ => Yields.pure ⟨trivial, Nat.succ_pos _⟩
  · exact Yields.throw _

theorem yields_read (offset : Nat) (form : Form) : Yields (form.read offset) ReadOp := by
  cases form with
  | plain | intConst | implicitLocal => exact Yields.pure ⟨trivial, Nat.succ_pos _⟩
  | bytePush | shortPush | loadNear | load | localVar | field | onClass | newArray | wideBranch =>
    exact Yields.after fun _ => Yields.pure ⟨trivial, Nat.succ_pos _⟩
  | increment | branch | invokeDynamic | newMultiArray =>
    exact Yields.after fun _ => Yields.after fun _ => Yields.pure ⟨trivial, Nat.succ_pos _⟩
  | tableSwitch => exact yields_tableSwitch offset
  | lookupSwitch => exact yields_lookupSwitch offset
  | wide => exact yields_wide offset
  | invoke invocation =>
    cases invocation with
    | virtual | special | static =>
      exact Yields.after fun _ => Yields.pure ⟨trivial, Nat.succ_pos _⟩
    | interface =>
      exact Yields.after fun _ => Yields.after fun _ => Yields.after fun _ =>
        Yields.pure ⟨trivial, Nat.succ_pos _⟩

theorem yields_readChecked (length offset : Nat) : Yields (readChecked length offset) ReadOp := by
  have hread : Yields (readOp offset) ReadOp := by
    refine Yields.after fun opcode => ?_
    split
    · exact yields_read offset _
    · exact Yields.throw _
  refine hread.mapError.bind fun result h => ?_
  obtain ⟨op, size⟩ := result
  dsimp only
  split
  · exact Yields.throw _
  · exact Yields.pure h

/-- Items that are cut off one after the other start at increasing offsets. -/
theorem exists_of_cutOnto_eq_ok {ε α : Type} {item : Nat → Reader ε (α × Nat)} {P : α → Prop}
    (hitem : ∀ offset, Yields (item offset) fun result => P result.1 ∧ 0 < result.2) :
    ∀ (bound offset : Nat) (done : List (Nat × α)) (bs : Bytes) (result : List (Nat × α)),
    Reader.cutOnto item bound offset done bs = .ok result →
      ∃ items, result = done.reverse ++ items ∧
      (items.map Prod.fst).Pairwise (· < ·) ∧ ∀ entry ∈ items, offset ≤ entry.1 ∧ P entry.2 := by
  intro bound
  induction bound with
  | zero =>
    intro offset done bs result h
    refine ⟨[], ?_, List.Pairwise.nil, fun _ hmem => absurd hmem List.not_mem_nil⟩
    rw [List.append_nil]
    cases bs <;> exact (Except.ok.inj h).symm
  | succ bound ih =>
    intro offset done bs result h
    cases bs with
    | nil =>
      refine ⟨[], ?_, List.Pairwise.nil, fun _ hmem => absurd hmem List.not_mem_nil⟩
      rw [List.append_nil]
      exact (Except.ok.inj h).symm
    | cons b bs =>
      rw [Reader.cutOnto] at h
      cases hread : item offset (b :: bs) with
      | error e => rw [hread] at h; exact absurd h (by simp)
      | ok p =>
        obtain ⟨⟨a, size⟩, rest⟩ := p
        rw [hread] at h
        obtain ⟨hP, hsize⟩ := hitem offset _ _ _ hread
        obtain ⟨items, rfl, hpairwise, hitems⟩ := ih _ _ _ _ h
        refine ⟨(offset, a) :: items, by simp, ?_, ?_⟩
        · refine List.Pairwise.cons (fun start hstart => ?_) hpairwise
          obtain ⟨entry, hentry, rfl⟩ := List.mem_map.mp hstart
          have hle := (hitems entry hentry).1
          exact Nat.lt_of_lt_of_le (Nat.lt_add_of_pos_right hsize) hle
        · refine List.forall_mem_cons.mpr ⟨⟨Nat.le_refl _, hP⟩, fun entry hentry => ?_⟩
          obtain ⟨hle, hPentry⟩ := hitems entry hentry
          exact ⟨Nat.le_trans (Nat.le_add_right _ _) hle, hPentry⟩

/-- Items whose lengths are those of their bytes start before the end. -/
theorem lt_of_cutOnto_eq_ok {ε α : Type} {item : Nat → Reader ε (α × Nat)}
    (hitem : ∀ offset, Sized 0 (item offset)) :
    ∀ (bound offset : Nat) (done : List (Nat × α)) (bs : Bytes) (result : List (Nat × α)),
    Reader.cutOnto item bound offset done bs = .ok result →
      ∀ entry ∈ result, entry ∈ done ∨ entry.1 < offset + bs.length := by
  intro bound
  induction bound with
  | zero =>
    intro offset done bs result h entry hentry
    obtain rfl : done.reverse = result := by cases bs <;> exact Except.ok.inj h
    exact Or.inl (List.mem_reverse.mp hentry)
  | succ bound ih =>
    intro offset done bs result h entry hentry
    cases bs with
    | nil =>
      obtain rfl := Except.ok.inj h
      exact Or.inl (List.mem_reverse.mp hentry)
    | cons b bs =>
      rw [Reader.cutOnto] at h
      cases hread : item offset (b :: bs) with
      | error e => rw [hread] at h; exact absurd h (by simp)
      | ok p =>
        obtain ⟨⟨a, size⟩, rest⟩ := p
        rw [hread] at h
        obtain ⟨s, hs, hsize⟩ := hitem offset _ _ _ hread
        have hlength := congrArg List.length hs
        rw [List.length_append] at hlength
        rcases ih _ _ _ _ h entry hentry with hdone | hlt
        · rcases List.mem_cons.mp hdone with rfl | hdone
          · right
            simp
          · exact Or.inl hdone
        · right
          simp only at hsize
          omega

/-! ### Whole methods -/

section Decode

variable {code : Bytes} {lines : List LineNumber} {decoded : List Decoded}

/-- **The bounds of table switches fit.** -/
theorem bounded_of_decode (h : decode code lines = .ok decoded) :
    ∀ entry ∈ decoded, entry.op.Bounded := by
  obtain ⟨ops, hcut, h⟩ := bind_eq_ok_iff.mp h
  obtain rfl := Except.ok.inj h
  obtain ⟨items, rfl, -, hitems⟩ :=
    exists_of_cutOnto_eq_ok (yields_readChecked code.length) _ _ _ _ _ hcut
  intro entry hentry
  obtain ⟨item, hitem, rfl⟩ := List.mem_map.mp hentry
  exact (hitems item hitem).2

theorem lt_length_of_cut {ops : List (Nat × Op)}
    (h : Reader.cut (readChecked code.length) code = .ok ops) :
    ∀ placed ∈ ops, placed.1 < code.length := by
  intro placed hplaced
  rcases lt_of_cutOnto_eq_ok (sized_readChecked code.length) _ _ _ _ _ h placed hplaced with
    hnone | hlt
  · exact absurd hnone List.not_mem_nil
  · rwa [Nat.zero_add] at hlt

/-- **In code of 32-bit offsets nothing wraps around.** -/
theorem decode_of_cut (hlength : code.length ≤ UInt32.size) {ops : List (Nat × Op)}
    (h : Reader.cut (readChecked code.length) code = .ok ops) (lines : List LineNumber) :
    decode code lines = .ok (ops.map fun placed =>
      { offset := placed.1, line := lineAt lines.toArray placed.1, op := placed.2 }) := by
  rw [decode, h]
  refine congrArg Except.ok (List.map_congr_left fun placed hplaced => ?_)
  dsimp only
  rw [Nat.mod_eq_of_lt (Nat.lt_of_lt_of_le (lt_length_of_cut h placed hplaced) hlength)]

/-- **The offsets of decoded operations increase up to the length of the code.** -/
theorem pairwise_offsets (hlength : code.length ≤ UInt32.size)
    (h : decode code lines = .ok decoded) :
    (decoded.map Decoded.offset ++ [code.length]).Pairwise (· < ·) := by
  obtain ⟨ops, hcut, -⟩ := bind_eq_ok_iff.mp h
  obtain ⟨items, hitems, hpairwise, -⟩ :=
    exists_of_cutOnto_eq_ok (yields_readChecked code.length) _ _ _ _ _ hcut
  obtain rfl : ops = items := hitems
  rw [decode_of_cut hlength hcut] at h
  obtain rfl := Except.ok.inj h
  rw [List.map_map]
  refine List.pairwise_append.mpr ⟨hpairwise, List.pairwise_singleton _ _, ?_⟩
  intro offset hoffset length hstop
  obtain ⟨placed, hplaced, rfl⟩ := List.mem_map.mp hoffset
  rw [List.mem_singleton.mp hstop]
  exact lt_length_of_cut hcut placed hplaced

end Decode

end Bytecode

namespace ClassFile

/-- What is found in an attribute was read from its bytes. -/
theorem Attribute.find_ok {α : Type} {pool : ConstantPool} {name : AttributeName}
    {content : Reader Fault α} {P : α → Prop} (hcontent : Yields content P)
    {attributes : List Attribute} {a : α} (h : find pool name content attributes = .ok (some a)) :
    P a := by
  induction attributes with
  | nil => exact absurd (Except.ok.inj h) (by simp)
  | cons attr rest ih =>
    rw [find] at h
    cases htext : pool.utf8 attr.name with
    | error e => rw [htext] at h; exact absurd h (by simp)
    | ok text =>
      rw [htext] at h
      dsimp only at h
      by_cases hname : text = name.text
      · rw [if_pos hname] at h
        unfold Attribute.parse at h
        rcases hread : content attr.info with e | ⟨b, left⟩ <;> rw [hread] at h
        · cases e <;> exact absurd h (by simp [Except.map])
        · cases left with
          | nil =>
            obtain rfl : b = a := Option.some.inj (Except.ok.inj h)
            exact hcontent attr.info b [] hread
          | cons byte left => exact absurd h (by simp [Except.map])
      · rw [if_neg hname] at h
        exact ih h

theorem yields_length_bytes : Yields Code.read fun code => code.bytes.length ≤ UInt32.size := by
  refine Yields.after fun maxStack => Yields.after fun maxLocals => Yields.after fun length =>
    (Yields.length_take length.toNat).bind fun bytes hbytes => Yields.after fun exceptions =>
    Yields.after fun attributes => Yields.pure ?_
  show bytes.length ≤ UInt32.size
  rw [hbytes]
  exact Nat.le_of_lt length.toNat_lt_size

/-- **The code of a method has 32-bit offsets**, because its length is a 32-bit number. -/
theorem Method.length_bytes_of_code {method : Method} {pool : ConstantPool} {code : Code}
    (h : method.code pool = .ok (some code)) : code.bytes.length ≤ UInt32.size :=
  Attribute.find_ok yields_length_bytes h

end ClassFile

end ClassImage
