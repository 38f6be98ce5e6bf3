import ClassImage.ClassFile.Basic
import ClassImage.Proofs.Assembly
import ClassImage.Proofs.Lowering

/-!
# Class files with fewer methods

Readers of class files look at no byte beyond what they take, so whatever one of them returned is
written down somewhere in full (`Local`). The parts of a class file can therefore be written one
after the other again, with only some of the methods (`exists_ofBytes_methods`).
-/

namespace ClassImage

/-! ### Readers that look no further -/

/-- Some bytes are read as this value, whatever follows them. -/
def Spelled {ε α : Type} (reader : Reader ε α) (a : α) : Prop :=
  ∃ s, ∀ rest, reader (s ++ rest) = .ok (a, rest)

namespace Spelled

variable {ε α β : Type} {reader : Reader ε α}

theorem pure (a : α) : Spelled (Pure.pure a : Reader ε α) a := ⟨[], fun _ => rfl⟩

theorem bind {next : α → Reader ε β} {a : α} {b : β} (h : Spelled reader a)
    (h' : Spelled (next a) b) :
    Spelled (reader >>= next) b := by
  obtain ⟨s, hs⟩ := h
  obtain ⟨s', hs'⟩ := h'
  refine ⟨s ++ s', fun rest => ?_⟩
  rw [List.append_assoc, Reader.bind_of_ok (hs _), hs']

theorem repeatOnto {as : List α} (h : ∀ a ∈ as, Spelled reader a) (done : List α) :
    Spelled (Reader.repeatOnto reader as.length done) (done.reverse ++ as) := by
  induction as generalizing done with
  | nil =>
    rw [List.append_nil]
    exact pure _
  | cons a as ih =>
    obtain ⟨s, hs⟩ := h a List.mem_cons_self
    obtain ⟨s', hs'⟩ := ih (fun b hb => h b (List.mem_cons_of_mem a hb)) (a :: done)
    refine ⟨s ++ s', fun rest => ?_⟩
    rw [List.length_cons, List.append_assoc, Reader.repeatOnto, hs]
    dsimp only
    rw [hs', List.reverse_cons, List.append_assoc, List.singleton_append]

end Spelled

/-- Whatever the reader returns is spelled out somewhere. -/
def Local {ε α : Type} (reader : Reader ε α) : Prop := Yields reader (Spelled reader)

namespace Local

variable {ε α β : Type} {reader : Reader ε α}

theorem pure (a : α) : Local (Pure.pure a : Reader ε α) := Yields.pure (.pure a)

theorem throw (e : ε) : Local (MonadExcept.throw e : Reader ε α) := Yields.throw e

theorem bind {next : α → Reader ε β} (h : Local reader) (h' : ∀ a, Local (next a)) :
    Local (reader >>= next) :=
  Yields.bind h fun a ha bs b rest hb => ha.bind (h' a bs b rest hb)

/-- Everything that was read on the way is spelled out. -/
theorem mem_repeatOnto (h : Local reader) (n : Nat) {done : List α}
    (hdone : ∀ a ∈ done, Spelled reader a) :
    Yields (Reader.repeatOnto reader n done) fun as => ∀ a ∈ as, Spelled reader a := by
  induction n generalizing done with
  | zero => exact Yields.pure fun a ha => hdone a (List.mem_reverse.mp ha)
  | succ n ih =>
    intro bs as rest hr
    rw [Reader.repeatOnto] at hr
    cases hb : reader bs with
    | error e => rw [hb] at hr; exact absurd hr (by simp)
    | ok p =>
      rw [hb] at hr
      exact ih (List.forall_mem_cons.mpr ⟨h bs p.1 p.2 hb, hdone⟩) p.2 as rest hr

variable [EndOfInput ε]

theorem byte : Local (Reader.byte : Reader ε UInt8) := by
  intro bs b rest hr
  exact ⟨[b], fun _ => rfl⟩

theorem take (n : Nat) : Local (Reader.take n : Reader ε Bytes) := by
  intro bs a rest hr
  obtain ⟨s, rfl, rfl, hlen⟩ := Returns.take n bs a rest hr
  refine ⟨s, fun rest => ?_⟩
  simp [Reader.take, ← hlen]

theorem nat (order : ByteOrder) (width : Nat) : Local (Reader.nat order width : Reader ε Nat) :=
  (take width).bind fun _ => pure _

theorem word16 (order : ByteOrder) : Local (Reader.word16 order : Reader ε UInt16) :=
  (nat order 2).bind fun _ => pure _

theorem word32 (order : ByteOrder) : Local (Reader.word32 order : Reader ε UInt32) :=
  (nat order 4).bind fun _ => pure _

theorem word64 (order : ByteOrder) : Local (Reader.word64 order : Reader ε UInt64) :=
  (nat order 8).bind fun _ => pure _

end Local

section Counted

variable {ε α : Type} [EndOfInput ε] {reader : Reader ε α}

/-- Lists with a count can be spelled out if they are short enough. -/
theorem Spelled.counted (order : ByteOrder) {as : List α} (hlen : as.length ≤ 0xFFFF)
    (h : ∀ a ∈ as, Spelled reader a) : Spelled (Reader.counted order reader) as := by
  have hcount : (UInt16.ofNat as.length).toNat = as.length := by
    rw [UInt16.toNat_ofNat', Nat.mod_eq_of_lt (by omega)]
  have hword : Spelled (Reader.word16 order : Reader ε UInt16) (UInt16.ofNat as.length) := by
    have hreads : Reads (fun _ : ε => True) _ _ _ :=
      Reads.word16 trivial order (UInt16.ofNat as.length)
    exact ⟨_, hreads.whole⟩
  refine hword.bind ?_
  rw [hcount]
  exact Spelled.repeatOnto h []

/-- A list with a count is never longer than the greatest count. -/
theorem Yields.length_counted (order : ByteOrder) :
    Yields (Reader.counted order reader) fun as => as.length ≤ 0xFFFF := by
  refine Yields.after fun n bs as rest hr => ?_
  have hlen := Yields.length_exactly n.toNat bs as rest hr
  have hlt := n.toNat_lt
  omega

/-- What a list with a count was read as: not too many values, each of them spelled out. -/
theorem Local.yields_counted (h : Local reader) (order : ByteOrder) :
    Yields (Reader.counted order reader) fun as => as.length ≤ 0xFFFF ∧
      ∀ a ∈ as, Spelled reader a := by
  intro bs as rest hr
  refine ⟨Yields.length_counted order bs as rest hr, ?_⟩
  obtain ⟨n, middle, -, hitems⟩ := Reader.exists_of_bind_eq_ok hr
  exact h.mem_repeatOnto n.toNat (fun _ ha => absurd ha List.not_mem_nil) middle as rest hitems

theorem Local.counted (h : Local reader) (order : ByteOrder) :
    Local (Reader.counted order reader) := by
  intro bs as rest hr
  obtain ⟨hlen, has⟩ := h.yields_counted order bs as rest hr
  exact .counted order hlen has

end Counted

/-! ### The parts of a class file -/

namespace ClassFile

theorem local_readIndex : Local readIndex := .word16 .big

theorem local_version : Local Version.read :=
  local_readIndex.bind fun _ => local_readIndex.bind fun _ => .pure _

theorem local_readUtf8 : Local readUtf8 := by
  refine local_readIndex.bind fun length => (Local.take _).bind fun bytes => ?_
  split
  · exact .pure _
  · exact .throw _

theorem local_constant (slot : Nat) : Local (Constant.read slot) := by
  refine Local.byte.bind fun tag => ?_
  unfold Constant.readBody
  split
  · exact local_readUtf8.bind fun _ => .pure _
  · exact (Local.word32 .big).bind fun _ => .pure _
  · exact (Local.word32 .big).bind fun _ => .pure _
  · exact (Local.word64 .big).bind fun _ => .pure _
  · exact (Local.word64 .big).bind fun _ => .pure _
  all_goals first
    | exact local_readIndex.bind fun _ => .pure _
    | exact local_readIndex.bind fun _ => local_readIndex.bind fun _ => .pure _
    | exact Local.byte.bind fun _ => local_readIndex.bind fun _ => .pure _
    | exact .throw _

theorem readSlots_succ (count bound : Nat) (slots : Layout Constant) :
    ConstantPool.readSlots count (bound + 1) slots =
      if slots.stop < count then
        Constant.read slots.stop >>= fun constant => ConstantPool.readSlots count bound
          (slots.push constant)
      else pure slots := by
  funext bs
  rw [ConstantPool.readSlots]
  split
  · rw [Reader.bind_apply]
    rcases Constant.read slots.stop bs with e | ⟨constant, rest⟩ <;> rfl
  · rfl

theorem local_readSlots (count bound : Nat) (slots : Layout Constant) :
    Local (ConstantPool.readSlots count bound slots) := by
  induction bound generalizing slots with
  | zero => exact .pure slots
  | succ bound ih =>
    rw [readSlots_succ]
    split
    · exact (local_constant _).bind fun constant => ih _
    · exact .pure slots

theorem local_constantPool : Local ConstantPool.read := by
  refine local_readIndex.bind fun count => (local_readSlots _ _ _).bind fun slots => ?_
  dsimp only
  split
  · exact (Local.throw _).bind fun _ => .pure _
  · exact (Local.pure _).bind fun _ => .pure _

theorem local_attribute : Local Attribute.read :=
  local_readIndex.bind fun _ => (Local.word32 .big).bind fun _ =>
    (Local.take _).bind fun _ => .pure _

theorem local_field : Local Field.read :=
  local_readIndex.bind fun _ => local_readIndex.bind fun _ => local_readIndex.bind fun _ =>
    (local_attribute.counted .big).bind fun _ => .pure _

theorem local_method : Local Method.read :=
  local_readIndex.bind fun _ => local_readIndex.bind fun _ => local_readIndex.bind fun _ =>
    (local_attribute.counted .big).bind fun _ => .pure _

/-- The parts of a class file are written one after the other, with some of the methods left out. -/
theorem spelled_read_methods {bs rest : Bytes} {classFile : ClassFile}
    (h : ClassFile.read bs = .ok (classFile, rest)) {kept : List Method}
    (hkept : kept.Sublist classFile.methods) :
    Spelled ClassFile.read { classFile with methods := kept } := by
  obtain ⟨opening, bs₁, hopening, h⟩ := Reader.exists_of_bind_eq_ok h
  by_cases hmagic : opening = magic
  · rw [if_pos hmagic] at h
    obtain ⟨version, bs₂, hversion, h⟩ := Reader.exists_of_bind_eq_ok h
    obtain ⟨constants, bs₃, hconstants, h⟩ := Reader.exists_of_bind_eq_ok h
    obtain ⟨accessFlags, bs₄, hflags, h⟩ := Reader.exists_of_bind_eq_ok h
    obtain ⟨thisClass, bs₅, hthis, h⟩ := Reader.exists_of_bind_eq_ok h
    obtain ⟨superClass, bs₆, hsuper, h⟩ := Reader.exists_of_bind_eq_ok h
    obtain ⟨interfaces, bs₇, hinterfaces, h⟩ := Reader.exists_of_bind_eq_ok h
    obtain ⟨fields, bs₈, hfields, h⟩ := Reader.exists_of_bind_eq_ok h
    obtain ⟨methods, bs₉, hmethods, h⟩ := Reader.exists_of_bind_eq_ok h
    obtain ⟨attributes, bs₁₀, hattributes, h⟩ := Reader.exists_of_bind_eq_ok h
    obtain ⟨rfl, -⟩ := Prod.mk.inj (Except.ok.inj h)
    obtain ⟨hlen, hspelled⟩ := local_method.yields_counted .big _ _ _ hmethods
    have hmethods' : Spelled (Reader.counted .big Method.read) kept :=
      .counted .big (Nat.le_trans hkept.length_le hlen) fun method hmem =>
        hspelled method (hkept.subset hmem)
    refine (Local.word32 .big _ _ _ hopening).bind ?_
    rw [if_pos hmagic]
    exact (local_version _ _ _ hversion).bind <| (local_constantPool _ _ _ hconstants).bind <|
      (local_readIndex _ _ _ hflags).bind <| (local_readIndex _ _ _ hthis).bind <|
      (local_readIndex _ _ _ hsuper).bind <|
        (local_readIndex.counted .big _ _ _ hinterfaces).bind <|
      (local_field.counted .big _ _ _ hfields).bind <| hmethods'.bind <|
      (local_attribute.counted .big _ _ _ hattributes).bind <| .pure _
  · rw [if_neg hmagic] at h
    exact absurd h (by simp [Reader.bind_apply, Reader.throw_apply])

/-- **A class file without some of its methods is a class file.** -/
theorem exists_ofBytes_methods {bytes : Bytes} {classFile : ClassFile}
    (h : ofBytes bytes = .ok classFile) {kept : List Method}
    (hkept : kept.Sublist classFile.methods) :
    ∃ bytes', ofBytes bytes' = .ok { classFile with methods := kept } := by
  obtain ⟨⟨classFile', rest⟩, hread, h⟩ := bind_eq_ok_iff.mp h
  obtain rfl : classFile' = classFile := Except.ok.inj h
  obtain ⟨s, hs⟩ := spelled_read_methods hread hkept
  refine ⟨s, ?_⟩
  have hwhole := hs []
  rw [List.append_nil] at hwhole
  rw [ofBytes, hwhole]
  rfl

end ClassFile

end ClassImage
