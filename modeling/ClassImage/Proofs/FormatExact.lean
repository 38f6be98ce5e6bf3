import ClassImage.Proofs.ClassFormat

/-!
# What is read as a class file is one

A reader that finds a class file has taken the bytes of a `Format.File` off the front, and nothing
else (`ofBytes_eq_ok_iff`). So whatever is known of a class file by its format is known of every
byte string that is read without a fault: the flags before those without a meaning are dropped, and
how each text is spelled.
-/

namespace ClassImage

namespace Returns

variable {ε α β : Type} {reader : Reader ε α} {P : α → Bytes → Prop}

/-- A value that is computed from what was read. -/
theorem bind_pure {f : α → β} {Q : β → Bytes → Prop} (h : Returns reader P)
    (hQ : ∀ a s, P a s → Q (f a) s) : Returns (reader >>= fun a => Pure.pure (f a)) Q := by
  refine h.bind fun a s hs => pure ?_
  rw [List.append_nil]
  exact hQ a s hs

end Returns

namespace ClassFile.Format

/-! ### Constants -/

theorem returns_index : Returns readIndex fun w s => s = word16 w := Returns.word16 .big

theorem returns_utf8 : Returns readUtf8 fun text s => ∃ spelling : Spelling,
    s = word16 (UInt16.ofNat spelling.bytes.length) ++ spelling.bytes ∧ text = spelling.text := by
  refine returns_index.bind fun length s hs => (Returns.take length.toNat).bind
    fun bytes s' hbytes => ?_
  obtain ⟨rfl, hlength⟩ := hbytes
  have hlt := length.toNat_lt
  have hword : word16 (UInt16.ofNat s'.length) = s := by rw [hlength, UInt16.ofNat_toNat, hs]
  cases hdecoded : Text.ModifiedUtf8.decode? s' with
  | none => exact Returns.throw _
  | some text =>
    refine Returns.pure ⟨⟨s', text, by omega, hdecoded⟩, ?_, rfl⟩
    dsimp only
    rw [hword, List.append_nil]

section Entries

variable {α β : Type} {first : Reader Fault α} {second : Reader Fault β} {spell : α → Bytes}
  {spell' : β → Bytes} {tag : UInt8}

/-- An entry with one part behind its tag. -/
theorem returns_one (h : Returns first fun a s => s = spell a) (entry : α → Entry)
    (hentry : ∀ a, (entry a).encode = tag :: spell a) :
    Returns (first >>= fun a => pure (entry a).constant)
      fun constant s => ∃ entry : Entry, [tag] ++ s = entry.encode ∧ constant = entry.constant := by
  refine h.bind_pure fun a s hs => ⟨entry a, ?_, rfl⟩
  rw [hentry, hs]
  rfl

/-- An entry with two parts behind its tag. -/
theorem returns_two (h : Returns first fun a s => s = spell a)
    (h' : Returns second fun b s => s = spell' b) (entry : α → β → Entry)
    (hentry : ∀ a b, (entry a b).encode = tag :: (spell a ++ spell' b)) :
    Returns (first >>= fun a => second >>= fun b => pure (entry a b).constant)
      fun constant s => ∃ entry : Entry, [tag] ++ s = entry.encode ∧ constant = entry.constant := by
  refine h.bind fun a s hs => h'.bind_pure fun b s' hs' => ⟨entry a b, ?_, rfl⟩
  rw [hentry, hs, hs']
  rfl

end Entries

/-- **What is read as a constant is an entry of the format.** -/
theorem returns_constant (slot : Nat) : Returns (Constant.read slot) fun constant s =>
    ∃ entry : Entry, s = entry.encode ∧ constant = entry.constant := by
  have h32 : Returns (Reader.word32 .big) fun w s => s = word32 w :=
    Returns.word32 (ε := Fault) .big
  have h64 : Returns (Reader.word64 .big) fun w s => s = word64 w :=
    Returns.word64 (ε := Fault) .big
  have hbyte : Returns Reader.byte fun b s => s = [b] := Returns.byte (ε := Fault)
  refine Returns.byte.bind fun tag s hs => ?_
  subst hs
  unfold Constant.readBody
  split
  · refine returns_utf8.bind_pure ?_
    rintro text s ⟨spelling, rfl, rfl⟩
    exact ⟨.utf8 spelling, rfl, rfl⟩
  · exact returns_one h32 (fun w => .integer w.toInt32) fun _ => rfl
  · exact returns_one h32 .float fun _ => rfl
  · exact returns_one h64 (fun w => .long w.toInt64) fun _ => rfl
  · exact returns_one h64 .double fun _ => rfl
  · exact returns_one returns_index .classRef fun _ => rfl
  · exact returns_one returns_index .string fun _ => rfl
  · exact returns_two returns_index returns_index .fieldRef fun _ _ => rfl
  · exact returns_two returns_index returns_index .methodRef fun _ _ => rfl
  · exact returns_two returns_index returns_index .interfaceMethodRef fun _ _ => rfl
  · exact returns_two returns_index returns_index .nameAndType fun _ _ => rfl
  · exact returns_two hbyte returns_index .methodHandle fun _ _ => rfl
  · exact returns_one returns_index .methodType fun _ => rfl
  · exact returns_two returns_index returns_index .dynamic fun _ _ => rfl
  · exact returns_two returns_index returns_index .invokeDynamic fun _ _ => rfl
  · exact returns_one returns_index .moduleRef fun _ => rfl
  · exact returns_one returns_index .packageRef fun _ => rfl
  · exact Returns.throw _

/-! ### Constant pools -/

/-- Entries that just cover the slots below a count, from a slot on: all of them begin below the
count, and behind the last one no entry would. -/
inductive Covers (count : Nat) : Nat → List Entry → Prop where
  | full {slot : Nat} (h : count ≤ slot) : Covers count slot []
  | more {slot : Nat} {entry : Entry} {entries : List Entry} (h : slot < count)
    (hrest : Covers count (slot + entry.slots) entries) : Covers count slot (entry :: entries)

theorem Covers.count_le {count slot : Nat} {entries : List Entry} (h : Covers count slot entries) :
    count ≤ slot + totalSize Entry.slots entries := by
  induction h with
  | full h => exact h
  | more _ _ ih =>
    rw [totalSize_cons]
    omega

section Slots

variable {count bound : Nat} {layout : Layout Constant} {entries : List Entry} {bs rest : Bytes}

/-- Constants are read until the slots are covered. -/
theorem readSlots_of_covers (hcount : count ≤ 0xFFFF) (h : Covers count layout.stop entries)
    (hbound : count ≤ layout.stop + bound) :
    ConstantPool.readSlots count bound layout (entries.flatMap Entry.encode ++ rest) =
      .ok ((entries.map Entry.constant).foldl Layout.extend layout, rest) := by
  induction bound generalizing layout entries with
  | zero =>
    cases h with
    | full => rfl
    | more h => omega
  | succ bound ih =>
    rw [readSlots_succ]
    cases h with
    | full h =>
      rw [if_neg (by omega)]
      rfl
    | @more _ entry entries h hrest =>
      have hpos := entry.slots_pos
      have hstop := entry.stop_extend layout
      rw [if_pos h, List.flatMap_cons, List.append_assoc,
        Reader.bind_of_ok ((reads_entry layout.stop entry).whole _), entry.push_constant (by omega),
        ih (by rwa [hstop]) (by omega)]
      rfl

/-- The entries behind a layout of constants that was read. -/
theorem exists_covers_of_readSlots {layout' : Layout Constant}
    (hcount : count ≤ 0xFFFF) (h : ConstantPool.readSlots count bound layout bs =
      .ok (layout', rest))
    (hbound : count ≤ layout.stop + bound) : ∃ entries, Covers count layout.stop entries ∧
      bs = entries.flatMap Entry.encode ++ rest ∧
      layout' = (entries.map Entry.constant).foldl Layout.extend layout := by
  induction bound generalizing layout bs with
  | zero =>
    obtain ⟨rfl, rfl⟩ := Prod.mk.inj (Except.ok.inj h)
    exact ⟨[], .full hbound, rfl, rfl⟩
  | succ bound ih =>
    rw [readSlots_succ] at h
    by_cases hroom : layout.stop < count
    · rw [if_pos hroom] at h
      obtain ⟨constant, middle, hfirst, h⟩ := Reader.exists_of_bind_eq_ok h
      obtain ⟨s, rfl, entry, rfl, rfl⟩ := returns_constant layout.stop bs constant middle hfirst
      have hpos := entry.slots_pos
      have hstop := entry.stop_extend layout
      rw [entry.push_constant (by omega)] at h
      obtain ⟨entries, hcovers, rfl, rfl⟩ := ih h (by omega)
      rw [hstop] at hcovers
      exact ⟨entry :: entries, .more hroom hcovers,
        by rw [List.flatMap_cons, List.append_assoc], rfl⟩
    · rw [if_neg hroom] at h
      obtain ⟨rfl, rfl⟩ := Prod.mk.inj (Except.ok.inj h)
      exact ⟨[], .full (by omega), rfl, rfl⟩

end Slots

/-- **What is read as a constant pool is spelled by entries that fill its slots.** -/
theorem returns_constants : Returns ConstantPool.read fun pool s => ∃ entries,
    totalSize Entry.slots entries ≤ 65534 ∧ s = File.encodeConstants entries ∧
      pool = ⟨Layout.ofList 1 (entries.map Entry.constant)⟩ := by
  intro bs pool rest hread
  obtain ⟨count, middle, hcount, h⟩ := Reader.exists_of_bind_eq_ok hread
  obtain ⟨s, rfl, rfl⟩ := returns_index bs count middle hcount
  obtain ⟨layout, last, hslots, h⟩ := Reader.exists_of_bind_eq_ok h
  obtain ⟨entries, hcovers, rfl, rfl⟩ :=
    exists_covers_of_readSlots (Nat.le_of_lt_succ count.toNat_lt) hslots (Nat.le_add_left _ _)
  have hle := hcovers.count_le
  have hstop := stop_ofList entries
  rw [Layout.ofList] at hstop
  dsimp only at h
  by_cases hspill : count.toNat < ((entries.map Entry.constant).foldl Layout.extend
    (Layout.startingAt 1)).stop
  · rw [if_pos hspill] at h
    exact absurd h (by simp [Reader.bind_apply, Reader.throw_apply])
  · rw [if_neg hspill] at h
    obtain ⟨rfl, rfl⟩ := Prod.mk.inj (Except.ok.inj h)
    have hlt := count.toNat_lt
    have hwhole : totalSize Entry.slots entries + 1 = count.toNat := by
      simp only [Layout.startingAt] at hle
      omega
    refine ⟨File.encodeConstants entries, ?_, entries, by omega, rfl, rfl⟩
    rw [File.encodeConstants, hwhole, UInt16.ofNat_toNat, List.append_assoc]

/-! ### Files -/

theorem returns_attribute : Returns Attribute.read fun attr s =>
    s = encodeAttribute attr ∧ attr.info.length < 2 ^ 32 := by
  refine returns_index.bind fun name s hs => (Returns.word32 .big).bind fun length s' hs' =>
    (Returns.take length.toNat).bind_pure ?_
  rintro info s'' ⟨rfl, hlength⟩
  have hlt := length.toNat_lt
  refine ⟨?_, by rwa [hlength]⟩
  rw [encodeAttribute, hs, hs', hlength, UInt32.ofNat_toNat, word32]

theorem returns_attributes : Returns (Reader.counted .big Attribute.read) fun attributes s =>
    s = sequence encodeAttribute attributes ∧ AttributesFit attributes := by
  refine (Returns.counted .big returns_attribute).mono ?_
  rintro attributes s ⟨hs, hcount, hlengths⟩
  refine ⟨?_, hcount, hlengths⟩
  rw [hs, sequence, word16, UInt16.toNat_ofNat_of_lt' (Nat.lt_succ_of_le hcount)]

/-- A sequence of values that are computed from those in the file. -/
theorem returns_sequence {α β : Type} {item : Reader Fault β} {encode : α → Bytes} {f : α → β}
    {good : α → Prop} (h : Returns item fun b s => ∃ a, s = encode a ∧ b = f a ∧ good a) :
    Returns (Reader.counted .big item) fun bs s =>
      ∃ as : List α, s = sequence encode as ∧ bs = as.map f ∧ as.length ≤ 0xFFFF ∧
        ∀ a ∈ as, good a := by
  refine returns_index.bind fun count s hs => (Returns.exactly_map count.toNat h).mono ?_
  rintro bs s' ⟨as, rfl, hlength, rfl, hgood⟩
  have hlt := count.toNat_lt
  refine ⟨as, ?_, rfl, by omega, hgood⟩
  rw [sequence, hlength, UInt16.ofNat_toNat, hs]

/-- A field or a method whose flags may lack a meaning. -/
theorem returns_member {α : Type} (make : UInt16 → UInt16 → UInt16 → List Attribute → α) :
    Returns (do
      let accessFlags ← readIndex
      let name ← readIndex
      let descriptor ← readIndex
      let attributes ← Reader.counted .big Attribute.read
      return make accessFlags name descriptor attributes) fun a s =>
        ∃ accessFlags name descriptor attributes,
          s = encodeMember accessFlags name descriptor attributes ∧
          a = make accessFlags name descriptor attributes ∧ AttributesFit attributes := by
  refine returns_index.bind fun accessFlags s hs => returns_index.bind fun name s' hs' =>
    returns_index.bind fun descriptor s'' hs'' => returns_attributes.bind_pure ?_
  rintro attributes t ⟨rfl, hfit⟩
  exact ⟨accessFlags, name, descriptor, attributes, by rw [encodeMember, hs, hs', hs''], rfl, hfit⟩

theorem returns_field : Returns Field.read fun field s => ∃ source : Field, s = encodeField source ∧
    field = { source with accessFlags := source.accessFlags &&& knownFieldFlags } ∧
    AttributesFit source.attributes := by
  refine (returns_member fun accessFlags name descriptor attributes =>
    (⟨fieldFlags accessFlags, name, descriptor, attributes⟩ : Field)).mono ?_
  rintro field s ⟨accessFlags, name, descriptor, attributes, hs, rfl, hfit⟩
  exact ⟨⟨accessFlags, name, descriptor, attributes⟩, hs, rfl, hfit⟩

theorem returns_method : Returns Method.read fun method s => ∃ source : Method,
    s = encodeMethod source ∧
    method = { source with accessFlags := source.accessFlags &&& knownMethodFlags } ∧
    AttributesFit source.attributes := by
  refine (returns_member fun accessFlags name descriptor attributes =>
    (⟨methodFlags accessFlags, name, descriptor, attributes⟩ : Method)).mono ?_
  rintro method s ⟨accessFlags, name, descriptor, attributes, hs, rfl, hfit⟩
  exact ⟨⟨accessFlags, name, descriptor, attributes⟩, hs, rfl, hfit⟩

theorem returns_version : Returns Version.read fun version s => s = File.encodeVersion version := by
  refine returns_index.bind fun minor s hs => returns_index.bind_pure fun major s' hs' => ?_
  rw [File.encodeVersion, hs, hs']

theorem returns_interfaces : Returns (Reader.counted .big readIndex) fun interfaces s =>
    s = sequence word16 interfaces ∧ interfaces.length ≤ 0xFFFF := by
  have hindex : Returns readIndex fun b s => ∃ a, s = word16 a ∧ b = id a ∧ True :=
    returns_index.mono fun w s hs => ⟨w, hs, rfl, trivial⟩
  refine (returns_sequence hindex).mono ?_
  rintro interfaces s ⟨as, hs, rfl, hlength, -⟩
  rw [List.map_id]
  exact ⟨hs, hlength⟩

/-- **What is read as a class file is spelled by the format.** -/
theorem returns_file : Returns ClassFile.read fun classFile s =>
    ∃ file : File, s = file.encode ∧ classFile = file.classFile := by
  refine (Returns.word32 .big).bind fun opening s hs => ?_
  dsimp only
  by_cases hmagic : opening = magic
  · rw [if_pos hmagic]
    refine returns_version.bind fun version s₁ hs₁ => returns_constants.bind fun pool s₂ hpool =>
      returns_index.bind fun accessFlags s₃ hs₃ => returns_index.bind fun thisClass s₄ hs₄ =>
      returns_index.bind fun superClass s₅ hs₅ => returns_interfaces.bind
        fun interfaces s₆ hinterfaces =>
      (returns_sequence returns_field).bind fun fields s₇ hfields =>
      (returns_sequence returns_method).bind fun methods s₈ hmethods =>
        returns_attributes.bind_pure ?_
    rintro attributes s₉ ⟨hs₉, hattributes⟩
    obtain ⟨entries, hslots, hs₂, rfl⟩ := hpool
    obtain ⟨hs₆, hinterfaces⟩ := hinterfaces
    obtain ⟨fields, hs₇, rfl, hfields, hfieldsFit⟩ := hfields
    obtain ⟨methods, hs₈, rfl, hmethods, hmethodsFit⟩ := hmethods
    let file : File := {
      version, constants := entries, accessFlags, thisClass, superClass, interfaces, fields,
      methods, attributes
      slots_le := hslots, interfaces_fit := hinterfaces, fields_fit := hfields,
      fieldAttributes_fit := hfieldsFit
      methods_fit := hmethods, methodAttributes_fit := hmethodsFit, attributes_fit := hattributes }
    refine ⟨file, ?_, rfl⟩
    rw [File.encode, hs, hmagic, hs₁, hs₂, hs₃, hs₄, hs₅, hs₆, hs₇, hs₈, hs₉]
    rfl
  · rw [if_neg hmagic]
    exact (Returns.throw (P := fun _ _ => False) _).bind fun _ _ h => h.elim

/-- **A byte string is read as a class file exactly if it starts with the bytes of one.** -/
theorem ofBytes_eq_ok_iff {bytes : Bytes} {classFile : ClassFile} : ofBytes bytes = .ok classFile ↔
    ∃ (file : File) (rest : Bytes), bytes = file.encode ++ rest ∧ classFile = file.classFile := by
  constructor
  · intro h
    obtain ⟨⟨classFile', rest⟩, hread, h⟩ := bind_eq_ok_iff.mp h
    obtain rfl : classFile' = classFile := Except.ok.inj h
    obtain ⟨s, hs, file, rfl, hfile⟩ := returns_file bytes classFile' rest hread
    exact ⟨file, rest, hs, hfile⟩
  · rintro ⟨file, rest, rfl, rfl⟩
    rw [ofBytes, (reads_file file).whole rest]
    rfl

end ClassFile.Format

end ClassImage
