import ClassImage.Proofs.Excision
import ClassImage.Proofs.Layout

/-!
# The class file format

`Format.File` is a class file as the format describes it: seventeen kinds of constants, with texts
in the bytes that spell them, flags as they stand in the file, and every sequence short enough for
its length. `File.encode` spells it out, and `File.classFile` is what is left of it for a reader,
who decodes the texts and drops the flags without a meaning. Reading takes exactly the encoding off
the front of a byte string, and a byte string that ends inside of it is truncated, wherever it ends
(`reads_file`).
-/

namespace ClassImage.ClassFile.Format

/-! ### Numbers and sequences -/

/-- A 16-bit number, the high byte first. -/
def word16 (w : UInt16) : Bytes := ByteOrder.bytes .big 2 w.toNat

/-- A 32-bit number, the highest byte first. -/
def word32 (w : UInt32) : Bytes := ByteOrder.bytes .big 4 w.toNat

/-- A 64-bit number, the highest byte first. -/
def word64 (w : UInt64) : Bytes := ByteOrder.bytes .big 8 w.toNat

/-- A sequence after its length. -/
def sequence {α : Type} (encode : α → Bytes) (as : List α) : Bytes :=
  word16 (UInt16.ofNat as.length) ++ as.flatMap encode

/-! ### Constants -/

/-- A text and bytes that spell it. -/
structure Spelling where
  bytes : Bytes
  text : String
  short : bytes.length ≤ 0xFFFF
  spells : Text.ModifiedUtf8.decode? bytes = some text

/-- A constant as it stands in a class file. -/
inductive Entry where
  | utf8 (spelling : Spelling)
  | integer (value : Int32)
  | float (bits : UInt32)
  | long (value : Int64)
  | double (bits : UInt64)
  | classRef (name : UInt16)
  | string (text : UInt16)
  | fieldRef (owner nameAndType : UInt16)
  | methodRef (owner nameAndType : UInt16)
  | interfaceMethodRef (owner nameAndType : UInt16)
  | nameAndType (name descriptor : UInt16)
  | methodHandle (kind : UInt8) (member : UInt16)
  | methodType (descriptor : UInt16)
  | dynamic (bootstrap nameAndType : UInt16)
  | invokeDynamic (bootstrap nameAndType : UInt16)
  | moduleRef (name : UInt16)
  | packageRef (name : UInt16)

namespace Entry

/-- The number that tells the kinds of constants apart. -/
def tag : Entry → UInt8
  | utf8 _ => 1
  | integer _ => 3
  | float _ => 4
  | long _ => 5
  | double _ => 6
  | classRef _ => 7
  | string _ => 8
  | fieldRef .. => 9
  | methodRef .. => 10
  | interfaceMethodRef .. => 11
  | nameAndType .. => 12
  | methodHandle .. => 15
  | methodType _ => 16
  | dynamic .. => 17
  | invokeDynamic .. => 18
  | moduleRef _ => 19
  | packageRef _ => 20

/-- What stands after the tag. -/
def content : Entry → Bytes
  | utf8 spelling => word16 (UInt16.ofNat spelling.bytes.length) ++ spelling.bytes
  | integer value => word32 value.toUInt32
  | float bits => word32 bits
  | long value => word64 value.toUInt64
  | double bits => word64 bits
  | classRef index | string index | methodType index | moduleRef index
  | packageRef index => word16 index
  | fieldRef first second | methodRef first second | interfaceMethodRef first second
  | nameAndType first second | dynamic first second | invokeDynamic first second =>
    word16 first ++ word16 second
  | methodHandle kind member => kind :: word16 member

def encode (entry : Entry) : Bytes := entry.tag :: entry.content

/-- The constant that an entry stands for. Both kinds of method references are one kind of constant,
which says whether the method belongs to an interface. -/
def constant : Entry → Constant
  | utf8 spelling => .utf8 spelling.text
  | integer value => .integer value
  | float bits => .float bits
  | long value => .long value
  | double bits => .double bits
  | classRef name => .classRef name
  | string text => .string text
  | fieldRef owner signature => .fieldRef owner signature
  | methodRef owner signature => .methodRef owner signature false
  | interfaceMethodRef owner signature => .methodRef owner signature true
  | nameAndType name descriptor => .nameAndType name descriptor
  | methodHandle kind member => .methodHandle kind member
  | methodType descriptor => .methodType descriptor
  | dynamic bootstrap signature => .dynamic bootstrap signature
  | invokeDynamic bootstrap signature => .invokeDynamic bootstrap signature
  | moduleRef name => .moduleRef name
  | packageRef name => .packageRef name

/-- The slots of the constant pool that an entry takes. -/
def slots : Entry → Nat
  | long _ | double _ => 2
  | _ => 1

theorem width_constant (entry : Entry) : width entry.constant = entry.slots := by
  cases entry <;> rfl

theorem slots_pos (entry : Entry) : 0 < entry.slots := by
  cases entry <;> exact Nat.succ_pos _

theorem slots_le_two (entry : Entry) : entry.slots ≤ 2 := by
  unfold slots
  split <;> decide

/-- A constant that begins at a 16-bit slot ends far below the offsets that wrap around. -/
theorem push_constant {layout : Layout Constant} (hslot : layout.stop ≤ 0xFFFF) (entry : Entry) :
    layout.push entry.constant = layout.extend entry.constant := by
  refine Layout.push_eq_extend (Nat.lt_of_le_of_lt (m := 0xFFFF + 2) ?_ (by decide))
  rw [entry.width_constant]
  exact Nat.add_le_add hslot entry.slots_le_two

theorem stop_extend (layout : Layout Constant) (entry : Entry) :
    (layout.extend entry.constant).stop = layout.stop + entry.slots := by
  rw [Layout.extend, entry.width_constant]

theorem totalSize_constants (entries : List Entry) :
    totalSize width (entries.map constant) = totalSize slots entries := by
  rw [totalSize_map]
  simp only [width_constant]

end Entry

/-! ### Files -/

/-- Attributes that are few enough and short enough for their lengths. -/
structure AttributesFit (attributes : List Attribute) : Prop where
  count : attributes.length ≤ 0xFFFF
  lengths : ∀ attr ∈ attributes, attr.info.length < 2 ^ 32

def encodeAttribute (attr : Attribute) : Bytes :=
  word16 attr.name ++ (word32 (UInt32.ofNat attr.info.length) ++ attr.info)

/-- Fields and methods are spelled alike. -/
def encodeMember (accessFlags name descriptor : UInt16) (attributes : List Attribute) : Bytes :=
  word16 accessFlags ++ (word16 name ++ (word16 descriptor ++ sequence encodeAttribute attributes))

def encodeField (field : Field) : Bytes :=
  encodeMember field.accessFlags field.name field.descriptor field.attributes

def encodeMethod (method : Method) : Bytes :=
  encodeMember method.accessFlags method.name method.descriptor method.attributes

/-- Public, final, super, interface, abstract, synthetic, annotation, enum and module. -/
def knownClassFlags : UInt16 :=
  0x0001 ||| 0x0010 ||| 0x0020 ||| 0x0200 ||| 0x0400 ||| 0x1000 ||| 0x2000 ||| 0x4000 ||| 0x8000

/-- Public, private, protected, static, final, volatile, transient, synthetic and enum. -/
def knownFieldFlags : UInt16 :=
  0x0001 ||| 0x0002 ||| 0x0004 ||| 0x0008 ||| 0x0010 ||| 0x0040 ||| 0x0080 ||| 0x1000 ||| 0x4000

/-- Public, private, protected, static, final, synchronized, bridge, varargs, native, abstract,
strict and synthetic. -/
def knownMethodFlags : UInt16 :=
  0x0001 ||| 0x0002 ||| 0x0004 ||| 0x0008 ||| 0x0010 ||| 0x0020 ||| 0x0040 ||| 0x0080 |||
    0x0100 ||| 0x0400 |||
    0x0800 ||| 0x1000

/-- A class file with all its flags and with its constants as they are spelled. -/
structure File where
  version : Version
  constants : List Entry
  accessFlags : UInt16
  thisClass : UInt16
  superClass : UInt16
  interfaces : List UInt16
  fields : List Field
  methods : List Method
  attributes : List Attribute
  /-- The slots are numbered from 1 on, and one more than their number has 16 bits. -/
  slots_le : totalSize Entry.slots constants ≤ 65534
  interfaces_fit : interfaces.length ≤ 0xFFFF
  fields_fit : fields.length ≤ 0xFFFF
  fieldAttributes_fit : ∀ field ∈ fields, AttributesFit field.attributes
  methods_fit : methods.length ≤ 0xFFFF
  methodAttributes_fit : ∀ method ∈ methods, AttributesFit method.attributes
  attributes_fit : AttributesFit attributes

namespace File

/-- The constants after their count, which is one more than the number of slots. -/
def encodeConstants (constants : List Entry) : Bytes :=
  word16 (UInt16.ofNat (totalSize Entry.slots constants + 1)) ++ constants.flatMap Entry.encode

/-- The minor version number stands before the major one. -/
def encodeVersion (version : Version) : Bytes := word16 version.minor ++ word16 version.major

/-- The bytes of a class file. -/
def encode (file : File) : Bytes :=
  [0xCA, 0xFE, 0xBA, 0xBE] ++ (encodeVersion file.version ++ (encodeConstants file.constants ++
    (word16 file.accessFlags ++ (word16 file.thisClass ++ (word16 file.superClass ++
      (sequence word16 file.interfaces ++ (sequence encodeField file.fields ++
        (sequence encodeMethod file.methods ++ sequence encodeAttribute file.attributes))))))))

/-- What a reader finds in a class file. -/
def classFile (file : File) : ClassFile where
  version := file.version
  constants := ⟨Layout.ofList 1 (file.constants.map Entry.constant)⟩
  accessFlags := file.accessFlags &&& knownClassFlags
  thisClass := file.thisClass
  superClass := file.superClass
  interfaces := file.interfaces
  fields :=
    file.fields.map fun field => { field with accessFlags := field.accessFlags &&& knownFieldFlags }
  methods := file.methods.map fun method =>
    { method with accessFlags := method.accessFlags &&& knownMethodFlags }
  attributes := file.attributes

end File

/-! ### Reading -/

/-- The fault of a class file that ends too early. -/
abbrev Truncated (fault : Fault) : Prop := fault = .truncated

theorem truncated_endOfInput : Truncated EndOfInput.endOfInput := rfl

theorem reads_index (w : UInt16) : Reads Truncated readIndex (word16 w) w :=
  Reads.word16 truncated_endOfInput .big w

theorem reads_word32 (w : UInt32) : Reads Truncated (Reader.word32 .big) (word32 w) w :=
  Reads.word32 truncated_endOfInput .big w

theorem reads_word64 (w : UInt64) : Reads Truncated (Reader.word64 .big) (word64 w) w :=
  Reads.word64 truncated_endOfInput .big w

theorem reads_byte (b : UInt8) : Reads Truncated Reader.byte [b] b :=
  Reads.byte truncated_endOfInput b

theorem reads_sequence {α β : Type} {item : Reader Fault β} {encode : α → Bytes} {f : α → β}
    {as : List α} (hlen : as.length ≤ 0xFFFF)
    (h : ∀ a ∈ as, Reads Truncated item (encode a) (f a)) :
    Reads Truncated (Reader.counted .big item) (sequence encode as) (as.map f) := by
  have hcounted := Reads.counted truncated_endOfInput .big hlen h
  rwa [sequence, word16, UInt16.toNat_ofNat_of_lt' (Nat.lt_succ_of_le hlen)]

/-- Bytes are read after their length. -/
theorem reads_take {length : Nat} (bytes : Bytes) (h : length = bytes.length) :
    Reads Truncated (Reader.take length) bytes bytes := by
  subst h
  exact Reads.take truncated_endOfInput bytes

theorem reads_utf8 (spelling : Spelling) : Reads Truncated readUtf8
    (word16 (UInt16.ofNat spelling.bytes.length) ++ spelling.bytes) spelling.text := by
  rw [← List.append_nil spelling.bytes]
  refine (reads_index _).bind ((reads_take _ ?_).bind ?_)
  · rw [List.append_nil, UInt16.toNat_ofNat_of_lt' (Nat.lt_succ_of_le spelling.short)]
  · rw [spelling.spells]
    exact Reads.pure

/-- **Each kind of constant is read after its tag.** -/
theorem reads_content (slot : Nat) (entry : Entry) :
    Reads Truncated (Constant.readBody slot entry.tag) entry.content entry.constant := by
  cases entry with
  | utf8 spelling => exact (reads_utf8 spelling).bind_pure
  | integer value =>
    exact (reads_word32 value.toUInt32).bind_pure (f := fun w => Constant.integer w.toInt32)
  | float bits => exact (reads_word32 bits).bind_pure
  | long value =>
    exact (reads_word64 value.toUInt64).bind_pure (f := fun w => Constant.long w.toInt64)
  | double bits => exact (reads_word64 bits).bind_pure
  | classRef index | string index | methodType index | moduleRef index | packageRef index =>
    exact (reads_index index).bind_pure
  | fieldRef first second | methodRef first second | interfaceMethodRef first second
  | nameAndType first second | dynamic first second | invokeDynamic first second =>
    exact (reads_index first).bind (reads_index second).bind_pure
  | methodHandle kind member => exact (reads_byte kind).bind (reads_index member).bind_pure

theorem reads_entry (slot : Nat) (entry : Entry) :
    Reads Truncated (Constant.read slot) entry.encode entry.constant :=
  (reads_byte entry.tag).bind (reads_content slot entry)

/-- **The slots of the entries decide when the reading of constants stops.** -/
theorem reads_readSlots (entries : List Entry) {count bound : Nat} {layout : Layout Constant}
    (hcount : count ≤ 0xFFFF) (hstop : layout.stop + totalSize Entry.slots entries = count)
    (hbound : entries.length ≤ bound) :
    Reads Truncated (ConstantPool.readSlots count bound layout) (entries.flatMap Entry.encode)
      ((entries.map Entry.constant).foldl Layout.extend layout) := by
  induction entries generalizing bound layout with
  | nil =>
    cases bound with
    | zero => exact Reads.pure
    | succ bound =>
      have hdone : ¬ layout.stop < count := by
        rw [totalSize_nil] at hstop
        omega
      rw [readSlots_succ, if_neg hdone]
      exact Reads.pure
  | cons entry entries ih =>
    cases bound with
    | zero => exact absurd hbound (Nat.not_succ_le_zero _)
    | succ bound =>
      rw [totalSize_cons] at hstop
      have hroom : layout.stop < count := by
        have hpos := entry.slots_pos
        omega
      have hnext : (layout.extend entry.constant).stop + totalSize Entry.slots entries = count := by
        rw [entry.stop_extend]
        omega
      have hrest := ih hnext (Nat.le_of_succ_le_succ hbound)
      rw [← entry.push_constant (by omega)] at hrest
      rw [readSlots_succ, if_pos hroom, List.map_cons, List.foldl_cons,
        ← entry.push_constant (by omega)]
      exact (reads_entry layout.stop entry).bind hrest

theorem length_le_totalSize (entries : List Entry) :
    entries.length ≤ totalSize Entry.slots entries := by
  induction entries with
  | nil => exact Nat.le_refl 0
  | cons entry entries ih =>
    have hpos := entry.slots_pos
    rw [List.length_cons, totalSize_cons]
    omega

theorem stop_ofList (entries : List Entry) :
    (Layout.ofList 1 (entries.map Entry.constant)).stop = 1 + totalSize Entry.slots entries := by
  rw [Layout.stop_ofList, Entry.totalSize_constants]

theorem reads_constants {entries : List Entry} (h : totalSize Entry.slots entries ≤ 65534) :
    Reads Truncated ConstantPool.read (File.encodeConstants entries)
      ⟨Layout.ofList 1 (entries.map Entry.constant)⟩ := by
  have hcount : (UInt16.ofNat (totalSize Entry.slots entries + 1)).toNat =
      totalSize Entry.slots entries + 1 := by
    rw [UInt16.toNat_ofNat', Nat.mod_eq_of_lt (by omega)]
  have hlength := length_le_totalSize entries
  rw [File.encodeConstants, ← List.append_nil (entries.flatMap Entry.encode)]
  refine (reads_index _).bind ((reads_readSlots entries ?_ ?_ ?_).bind ?_)
  · rw [hcount]
    omega
  · rw [hcount, Layout.startingAt, Nat.add_comm]
  · rw [hcount]
    omega
  · have hfits : ¬ totalSize Entry.slots entries + 1 <
        ((entries.map Entry.constant).foldl Layout.extend (Layout.startingAt 1)).stop := by
      rw [← Layout.ofList, stop_ofList, Nat.add_comm]
      exact Nat.lt_irrefl _
    dsimp only
    rw [hcount, if_neg hfits]
    exact Reads.pure

theorem reads_attribute {attr : Attribute} (h : attr.info.length < 2 ^ 32) :
    Reads Truncated Attribute.read (encodeAttribute attr) attr := by
  refine (reads_index _).bind ((reads_word32 _).bind (reads_take _ ?_).bind_pure)
  rw [UInt32.toNat_ofNat', Nat.mod_eq_of_lt h]

theorem reads_attributes {attributes : List Attribute} (h : AttributesFit attributes) :
    Reads Truncated (Reader.counted .big Attribute.read)
      (sequence encodeAttribute attributes) attributes := by
  have hsequence := reads_sequence (f := fun a => a) h.count fun attr hmem =>
    reads_attribute (h.lengths attr hmem)
  rwa [List.map_id'] at hsequence

theorem reads_field {field : Field} (h : AttributesFit field.attributes) :
    Reads Truncated Field.read (encodeField field)
      { field with accessFlags := field.accessFlags &&& knownFieldFlags } :=
  (reads_index _).bind ((reads_index _).bind ((reads_index _).bind (reads_attributes h).bind_pure))

theorem reads_method {method : Method} (h : AttributesFit method.attributes) :
    Reads Truncated Method.read (encodeMethod method)
      { method with accessFlags := method.accessFlags &&& knownMethodFlags } :=
  (reads_index _).bind ((reads_index _).bind ((reads_index _).bind (reads_attributes h).bind_pure))

theorem reads_version (version : Version) :
    Reads Truncated Version.read (File.encodeVersion version) version :=
  (reads_index _).bind (reads_index _).bind_pure

/-- **Reading takes exactly the encoding of a class file**, and misses every byte of it. -/
theorem reads_file (file : File) : Reads Truncated ClassFile.read file.encode file.classFile := by
  have hinterfaces := reads_sequence (f := fun index => index) file.interfaces_fit fun index _ =>
    reads_index index
  have hfields := reads_sequence file.fields_fit fun field hmem =>
    reads_field (file.fieldAttributes_fit field hmem)
  have hmethods := reads_sequence file.methods_fit fun method hmem =>
    reads_method (file.methodAttributes_fit method hmem)
  have hattributes := reads_attributes file.attributes_fit
  rw [List.map_id'] at hinterfaces
  refine (reads_word32 magic).bind ?_
  dsimp only
  rw [if_pos rfl]
  exact (reads_version file.version).bind ((reads_constants file.slots_le).bind
    ((reads_index _).bind ((reads_index _).bind ((reads_index _).bind
      (hinterfaces.bind (hfields.bind (hmethods.bind hattributes.bind_pure)))))))

/-- **Reading a class file inverts the format.** A class file is read from its bytes whatever stands
behind them, and of every front part of its bytes that lacks one, the only thing said is that it is
truncated. -/
theorem ofBytes_encode (file : File) :
    (∀ rest, ofBytes (file.encode ++ rest) = .ok file.classFile) ∧
      (∀ front, front <+: file.encode → front ≠ file.encode → ofBytes front = .error .truncated) ∧
      file.classFile.constants.toList =
        (offsetsFrom Entry.slots 1 file.constants).zip (file.constants.map Entry.constant) := by
  have hreads := reads_file file
  refine ⟨fun rest => ?_, fun front hfront hne => ?_, ?_⟩
  · rw [ofBytes, hreads.whole rest]
    rfl
  · obtain ⟨fault, hfault, rfl⟩ := hreads.cut front hfront hne
    rw [ofBytes, hfault]
    rfl
  · rw [ConstantPool.toList]
    show (Layout.ofList 1 (file.constants.map Entry.constant)).toList = _
    rw [Layout.toList_ofList, offsetsFrom_map]
    simp only [Entry.width_constant]

/-- The interface `A`, with a constant of two slots, with every flag set and with an abstract
method. -/
def sampleFile : File where
  version := .java8
  constants := [.utf8 ⟨[0x41], "A", by decide, by decide⟩, .classRef 1, .long 42,
    .interfaceMethodRef 2 6, .nameAndType 1 1]
  accessFlags := 0xFFFF
  thisClass := 2
  superClass := 0
  interfaces := [2]
  fields := []
  methods := [⟨0xFFFF, 1, 1, [⟨1, [7]⟩]⟩]
  attributes := []
  slots_le := by decide
  interfaces_fit := by decide
  fields_fit := by decide
  fieldAttributes_fit := fun _ hmem => absurd hmem List.not_mem_nil
  methods_fit := by decide
  methodAttributes_fit := by
    intro method hmem
    obtain rfl := List.mem_singleton.mp hmem
    exact ⟨by decide, by decide⟩
  attributes_fit := ⟨by decide, fun _ hmem => absurd hmem List.not_mem_nil⟩

/-- The long constant takes the slots 3 and 4, so the method reference stands at slot 5. -/
theorem ofBytes_sampleFile : sampleFile.encode =
      [0xCA, 0xFE, 0xBA, 0xBE, 0, 0, 0, 52, 0, 7, 1, 0, 1, 0x41, 7, 0, 1, 5, 0, 0,
        0, 0, 0, 0, 0, 42, 11, 0, 2, 0, 6, 12, 0, 1, 0, 1, 0xFF, 0xFF, 0, 2, 0, 0, 0, 1, 0, 2, 0, 0,
        0, 1, 0xFF, 0xFF, 0, 1, 0, 1, 0, 1, 0, 1, 0, 0, 0, 1, 7, 0, 0] ∧
    ofBytes (sampleFile.encode ++ [1, 2, 3]) = .ok sampleFile.classFile ∧
    ofBytes (sampleFile.encode.take 30) = .error .truncated ∧
    sampleFile.classFile.constants.toList = [(1, .utf8 "A"), (2, .classRef 1), (3, .long 42),
      (5, .methodRef 2 6 true), (6, .nameAndType 1 1)] := by
  have hencode : sampleFile.encode.take 30 ≠ sampleFile.encode := by decide +kernel
  obtain ⟨hwhole, hfront, hconstants⟩ := ofBytes_encode sampleFile
  exact ⟨by decide +kernel, hwhole _, hfront _ (List.take_prefix _ _) hencode, hconstants⟩

end ClassImage.ClassFile.Format
