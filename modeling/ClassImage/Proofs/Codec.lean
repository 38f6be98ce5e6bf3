import ClassImage.Image.Codec
import ClassImage.Proofs.Stream

/-!
# Class images and their bytes

`encode` writes an image down as a byte string, section by section and without a sink. Three
families of lemmas tie it to the program, each following the parts of an image from the smallest up:

* `emits_…`: the writer writes the encoding, if every count fits;
* `reads_…`: the reader takes the encoding off the front of what follows, and misses the rest of
  every proper front part of it;
* `returns_…`: what the reader returns, encoded, is what it took.

An image with counts that fit is not always determined by its bytes: an index that happens to be the
number for "none" is read back as none, and of the length of code only 32 bits are kept.
`Encodable` excludes both. What has been read is always encodable.
-/

namespace ClassImage.Image

/-! ### Encodings -/

def encodeOption (index : Option UInt16) : Bytes := digits 2 (index.getD absent).toNat

def encodeText (text : String) : Bytes := digits 2 text.utf8ByteSize ++ text.toUTF8.data.toList

/-- The count of a list and then its elements. -/
def encodeList {α : Type} (encode : α → Bytes) (as : List α) : Bytes :=
  digits 2 as.length ++ as.flatMap encode

def Constant.encode : Constant → Bytes
  | int value => [1] ++ digits 4 value.toUInt32.toNat
  | float bits => [2] ++ digits 4 bits.toNat
  | long value => [3] ++ digits 8 value.toUInt64.toNat
  | double bits => [4] ++ digits 8 bits.toNat
  | string name => [5] ++ digits 2 name.toNat

def Member.encode (member : Member) : Bytes :=
  digits 2 member.name.toNat ++ digits 2 member.descriptor.toNat

def Field.encode (field : Field) : Bytes :=
  digits 2 field.accessFlags.toNat ++ (digits 2 field.name.toNat ++
    (digits 2 field.descriptor.toNat ++ encodeOption field.constantValue))

def LineEntry.encode (entry : LineEntry) : Bytes :=
  digits 2 entry.offset.toNat ++ digits 2 entry.line.toNat

def Handler.encode (handler : Handler) : Bytes :=
  digits 2 handler.start.toNat ++ (digits 2 handler.stop.toNat ++
    (digits 2 handler.entry.toNat ++ encodeOption handler.catchType))

/-- Code after its length, of which 32 bits are kept. -/
def encodeCode (code : Bytes) : Bytes := digits 4 (UInt32.ofNat code.length).toNat ++ code

def Method.encode (method : Method) : Bytes :=
  digits 2 method.accessFlags.toNat ++ (digits 2 method.name.toNat ++
    (digits 2 method.descriptor.toNat ++ (digits 2 method.maxStack.toNat ++
      (digits 2 method.maxLocals.toNat ++ (encodeCode method.code ++
        (encodeList LineEntry.encode method.lines ++
          encodeList Handler.encode method.handlers))))))

/-- The bytes of an image. -/
def encode (image : Image) : Bytes :=
  magic ++ (digits 2 version.toNat ++ (digits 2 image.accessFlags.toNat ++
    (digits 2 image.thisClass.toNat ++ (encodeOption image.superClass ++
      (encodeOption image.sourceFile ++
        (encodeList (fun id : ClassId => digits 2 id.toNat) image.interfaces ++
          (encodeList encodeText image.names ++ (encodeList Constant.encode image.constants ++
            (encodeList Member.encode image.members ++ (encodeList Field.encode image.fields ++
              encodeList Method.encode image.methods))))))))))

/-- Every sequence of an image is short enough for its 16-bit count. -/
structure CountsFit (image : Image) : Prop where
  interfaces : image.interfaces.length ≤ 0xFFFF
  names : image.names.length ≤ 0xFFFF
  texts : ∀ name ∈ image.names, name.utf8ByteSize ≤ 0xFFFF
  constants : image.constants.length ≤ 0xFFFF
  members : image.members.length ≤ 0xFFFF
  fields : image.fields.length ≤ 0xFFFF
  methods : image.methods.length ≤ 0xFFFF
  lines : ∀ method ∈ image.methods, method.lines.length ≤ 0xFFFF
  handlers : ∀ method ∈ image.methods, method.handlers.length ≤ 0xFFFF

/-- An image that its bytes determine: counts and code lengths fit, and no index is the number that
stands for none. -/
structure Encodable (image : Image) : Prop extends CountsFit image where
  code : ∀ method ∈ image.methods, method.code.length < 2 ^ 32
  superClass : image.superClass ≠ some absent
  sourceFile : image.sourceFile ≠ some absent
  constantValues : ∀ field ∈ image.fields, field.constantValue ≠ some absent
  catchTypes : ∀ method ∈ image.methods, ∀ handler ∈ method.handlers,
    handler.catchType ≠ some absent

/-! ### Writing -/

theorem emits_option (index : Option UInt16) :
    Emits (writeOption index) True (encodeOption index) :=
  Emits.word16 _

theorem emits_text (text : String) :
    Emits (writeText text) (text.utf8ByteSize ≤ 0xFFFF) (encodeText text) :=
  ((Emits.count _).bind (Emits.bytes _)).congr (and_iff_left trivial) rfl

theorem emits_constant (constant : Constant) : Emits constant.write True constant.encode := by
  cases constant with
  | int value => exact ((Emits.byte 1).bind (Emits.word32 _)).congr and_self_iff rfl
  | float bits => exact ((Emits.byte 2).bind (Emits.word32 _)).congr and_self_iff rfl
  | long value => exact ((Emits.byte 3).bind (Emits.word64 _)).congr and_self_iff rfl
  | double bits => exact ((Emits.byte 4).bind (Emits.word64 _)).congr and_self_iff rfl
  | string name => exact ((Emits.byte 5).bind (Emits.word16 _)).congr and_self_iff rfl

theorem emits_member (member : Member) : Emits member.write True member.encode :=
  ((Emits.word16 _).bind (Emits.word16 _)).congr and_self_iff rfl

theorem emits_field (field : Field) : Emits field.write True field.encode :=
  ((Emits.word16 _).bind ((Emits.word16 _).bind ((Emits.word16 _).bind
    (emits_option _)))).congr (by simp) rfl

theorem emits_lineEntry (entry : LineEntry) : Emits entry.write True entry.encode :=
  ((Emits.word16 _).bind (Emits.word16 _)).congr and_self_iff rfl

theorem emits_handler (handler : Handler) : Emits handler.write True handler.encode :=
  ((Emits.word16 _).bind ((Emits.word16 _).bind ((Emits.word16 _).bind
    (emits_option _)))).congr (by simp) rfl

theorem emits_method (method : Method) :
    Emits method.write (method.lines.length ≤ 0xFFFF ∧ method.handlers.length ≤ 0xFFFF)
      method.encode := by
  have hlines := Emits.counted emits_lineEntry method.lines
  have hhandlers := Emits.counted emits_handler method.handlers
  refine ((Emits.word16 _).bind ((Emits.word16 _).bind ((Emits.word16 _).bind
    ((Emits.word16 _).bind ((Emits.word16 _).bind ((Emits.word32 _).bind
      ((Emits.bytes _).bind (hlines.bind hhandlers)))))))).congr ?_ ?_
  · simp
  · simp [Method.encode, encodeCode, encodeList]

/-- **An image is written as its encoding** if its counts fit, and refused otherwise. -/
theorem emits_image (image : Image) : Emits image.write image.CountsFit image.encode := by
  have hinterfaces := Emits.counted Emits.word16 image.interfaces
  have hnames := Emits.counted emits_text image.names
  have hconstants := Emits.counted emits_constant image.constants
  have hmembers := Emits.counted emits_member image.members
  have hfields := Emits.counted emits_field image.fields
  have hmethods := Emits.counted emits_method image.methods
  refine ((Emits.bytes _).bind ((Emits.word16 _).bind ((Emits.word16 _).bind
    ((Emits.word16 _).bind ((emits_option _).bind ((emits_option _).bind
      (hinterfaces.bind (hnames.bind (hconstants.bind (hmembers.bind
        (hfields.bind hmethods))))))))))).congr ?_ rfl
  constructor
  · rintro ⟨-, -, -, -, -, -, ⟨hi, -⟩, ⟨hn, ht⟩, ⟨hc, -⟩, ⟨hm, -⟩, ⟨hf, -⟩, hms, hmm⟩
    exact ⟨hi, hn, ht, hc, hm, hf, hms, fun m h => (hmm m h).1, fun m h => (hmm m h).2⟩
  · intro h
    exact ⟨trivial, trivial, trivial, trivial, trivial, trivial, ⟨h.interfaces, fun _ _ => trivial⟩,
      ⟨h.names, h.texts⟩, ⟨h.constants, fun _ _ => trivial⟩, ⟨h.members, fun _ _ => trivial⟩,
      ⟨h.fields, fun _ _ => trivial⟩, h.methods, fun m hm => ⟨h.lines m hm, h.handlers m hm⟩⟩

/-! ### Reading what was written -/

/-- The input ended, inside a number or inside code. -/
abbrev InputEnds (e : StreamFault) : Prop := e.isEndOfInput = true

theorem inputEnds_endOfInput : InputEnds EndOfInput.endOfInput := rfl

theorem reads_word16 (w : UInt16) : Reads InputEnds (Reader.word16 .little) (digits 2 w.toNat) w :=
  Reads.word16 inputEnds_endOfInput .little w

theorem reads_word32 (w : UInt32) : Reads InputEnds (Reader.word32 .little) (digits 4 w.toNat) w :=
  Reads.word32 inputEnds_endOfInput .little w

theorem reads_word64 (w : UInt64) : Reads InputEnds (Reader.word64 .little) (digits 8 w.toNat) w :=
  Reads.word64 inputEnds_endOfInput .little w

theorem reads_list {α : Type} {item : Reader StreamFault α} {encode : α → Bytes} {as : List α}
    (hlen : as.length ≤ 0xFFFF) (h : ∀ a ∈ as, Reads InputEnds item (encode a) a) :
    Reads InputEnds (Reader.counted .little item) (encodeList encode as) as := by
  have hcounted := Reads.counted (f := fun a => a) inputEnds_endOfInput .little hlen h
  rwa [List.map_id'] at hcounted

theorem reads_option {index : Option UInt16} (h : index ≠ some absent) :
    Reads InputEnds readOption (encodeOption index) index := by
  have hword := (reads_word16 (index.getD absent)).bind_pure
    (f := fun i => if i = absent then none else some i)
  cases index with
  | none => exact hword
  | some i =>
    have hi : i ≠ absent := fun h0 => h (by rw [h0])
    rwa [Option.getD_some, if_neg hi] at hword

theorem fromUTF8?_toUTF8 (text : String) :
    String.fromUTF8? (text.toUTF8.data.toList.toByteArray) = some text := by
  have h : text.toUTF8.data.toList.toByteArray = text.toByteArray := by
    apply ByteArray.ext
    simp
  rw [h, String.fromUTF8?, dif_pos text.isValidUTF8]
  rfl

theorem reads_text {text : String} (h : text.utf8ByteSize ≤ 0xFFFF) :
    Reads InputEnds readText (encodeText text) text := by
  have hsize : (UInt16.ofNat text.utf8ByteSize).toNat = text.utf8ByteSize := by
    rw [UInt16.toNat_ofNat', Nat.mod_eq_of_lt (by omega)]
  have hlength : text.toUTF8.data.toList.length = text.utf8ByteSize :=
    Array.length_toList
  have hword := reads_word16 (UInt16.ofNat text.utf8ByteSize)
  have hbytes : Reads InputEnds _ _ _ := Reads.take inputEnds_endOfInput text.toUTF8.data.toList
  rw [hsize] at hword
  rw [hlength] at hbytes
  rw [encodeText, ← List.append_nil text.toUTF8.data.toList]
  refine hword.bind ?_
  rw [hsize]
  refine hbytes.bind ?_
  rw [fromUTF8?_toUTF8]
  exact Reads.pure

theorem reads_constant (constant : Constant) :
    Reads InputEnds Constant.read constant.encode constant := by
  have htag : ∀ tag, Reads InputEnds Reader.byte [tag] tag := Reads.byte inputEnds_endOfInput
  cases constant with
  | int value => exact (htag 1).bind ((reads_word32 _).bind_pure)
  | float bits => exact (htag 2).bind ((reads_word32 _).bind_pure)
  | long value => exact (htag 3).bind ((reads_word64 _).bind_pure)
  | double bits => exact (htag 4).bind ((reads_word64 _).bind_pure)
  | string name => exact (htag 5).bind ((reads_word16 _).bind_pure)

theorem reads_member (member : Member) : Reads InputEnds Member.read member.encode member :=
  (reads_word16 _).bind ((reads_word16 _).bind_pure)

theorem reads_field {field : Field} (h : field.constantValue ≠ some absent) :
    Reads InputEnds Field.read field.encode field :=
  (reads_word16 _).bind ((reads_word16 _).bind ((reads_word16 _).bind (reads_option h).bind_pure))

theorem reads_lineEntry (entry : LineEntry) : Reads InputEnds LineEntry.read entry.encode entry :=
  (reads_word16 _).bind ((reads_word16 _).bind_pure)

theorem reads_handler {handler : Handler} (h : handler.catchType ≠ some absent) :
    Reads InputEnds Handler.read handler.encode handler :=
  (reads_word16 _).bind ((reads_word16 _).bind ((reads_word16 _).bind (reads_option h).bind_pure))

theorem reads_code {code : Bytes} (h : code.length < 2 ^ 32) :
    Reads InputEnds readCode (encodeCode code) code := by
  have hlength : (UInt32.ofNat code.length).toNat = code.length := by
    rw [UInt32.toNat_ofNat', Nat.mod_eq_of_lt h]
  have htake : Reads (fun _ : Ended => True) (Reader.take code.length) code code :=
    Reads.take trivial code
  refine (reads_word32 _).bind ?_
  rw [hlength]
  exact htake.mapError fun _ _ => rfl

/-- What a method must satisfy to be determined by its bytes. -/
structure Method.Encodable (method : Method) : Prop where
  code : method.code.length < 2 ^ 32
  lines : method.lines.length ≤ 0xFFFF
  handlers : method.handlers.length ≤ 0xFFFF
  catchTypes : ∀ handler ∈ method.handlers, handler.catchType ≠ some absent

theorem Encodable.method {image : Image} (h : image.Encodable) :
    ∀ method ∈ image.methods, method.Encodable :=
  fun method hm => ⟨h.code method hm, h.lines method hm, h.handlers method hm,
    h.catchTypes method hm⟩

theorem reads_method {method : Method} (h : method.Encodable) :
    Reads InputEnds Method.read method.encode method := by
  have hlines := reads_list h.lines fun entry _ => reads_lineEntry entry
  have hhandlers := reads_list h.handlers fun handler hh => reads_handler (h.catchTypes handler hh)
  exact (reads_word16 _).bind ((reads_word16 _).bind ((reads_word16 _).bind ((reads_word16 _).bind
    ((reads_word16 _).bind ((reads_code h.code).bind (hlines.bind hhandlers.bind_pure))))))

/-- **The encoding of an encodable image is read back.** -/
theorem reads_image {image : Image} (h : image.Encodable) :
    Reads InputEnds Image.read image.encode image := by
  have hmagic : Reads InputEnds (Reader.take magic.length) magic magic :=
    Reads.take inputEnds_endOfInput magic
  have hinterfaces := reads_list h.interfaces fun id _ => reads_word16 id
  have hnames := reads_list h.names fun name hn => reads_text (h.texts name hn)
  have hconstants := reads_list h.constants fun constant _ => reads_constant constant
  have hmembers := reads_list h.members fun member _ => reads_member member
  have hfields := reads_list h.fields fun field hf => reads_field (h.constantValues field hf)
  have hmethods := reads_list h.methods fun method hm => reads_method (h.method method hm)
  exact hmagic.bind ((reads_word16 _).bind ((reads_word16 _).bind ((reads_word16 _).bind
    ((reads_option h.superClass).bind ((reads_option h.sourceFile).bind (hinterfaces.bind
      (hnames.bind (hconstants.bind (hmembers.bind (hfields.bind hmethods.bind_pure))))))))))

/-! ### What was read had been written -/

theorem returns_word16 : Returns (Reader.word16 .little : Reader StreamFault UInt16)
    (fun w s => s = digits 2 w.toNat) := Returns.word16 .little

theorem returns_list {α : Type} {item : Reader StreamFault α} {encode : α → Bytes} {good : α → Prop}
    (h : Returns item (fun a s => s = encode a ∧ good a)) :
    Returns (Reader.counted .little item)
      (fun as s => s = encodeList encode as ∧ as.length ≤ 0xFFFF ∧ ∀ a ∈ as, good a) :=
  Returns.counted .little h

theorem returns_option :
    Returns readOption (fun index s => s = encodeOption index ∧ index ≠ some absent) := by
  refine returns_word16.bind fun i s hs => Returns.pure ?_
  rw [List.append_nil, hs]
  by_cases hi : i = absent
  · rw [if_pos hi, hi]
    exact ⟨rfl, by simp⟩
  · rw [if_neg hi]
    exact ⟨rfl, fun h => hi (Option.some.inj h)⟩

theorem toUTF8_of_fromUTF8? {bs : Bytes} {text : String}
    (h : String.fromUTF8? bs.toByteArray = some text) : text.toUTF8.data.toList = bs := by
  rw [String.fromUTF8?] at h
  split at h
  · obtain rfl := Option.some.inj h
    simp [String.fromUTF8]
  · exact absurd h (by simp)

theorem returns_text :
    Returns readText (fun text s => s = encodeText text ∧ text.utf8ByteSize ≤ 0xFFFF) := by
  refine returns_word16.bind fun n s hs => (Returns.take n.toNat).bind fun _ bytes htake => ?_
  obtain ⟨rfl, hlength⟩ := htake
  cases htext : String.fromUTF8? bytes.toByteArray with
  | none => exact Returns.throw _
  | some text =>
    refine Returns.pure ?_
    have hbytes := toUTF8_of_fromUTF8? htext
    have hsize : text.utf8ByteSize = n.toNat := by
      rw [← hlength, ← hbytes]
      exact Array.length_toList.symm
    have hn := n.toNat_lt
    rw [List.append_nil, hs, encodeText, hbytes, hsize]
    exact ⟨rfl, by omega⟩

theorem returns_constant :
    Returns Constant.read (fun constant s => s = constant.encode ∧ True) := by
  refine Returns.byte.bind fun tag s hs => ?_
  subst hs
  split
  · refine (Returns.word32 .little).bind fun w s hs => Returns.pure ⟨?_, trivial⟩
    rw [List.append_nil, hs, Constant.encode, UInt32.toUInt32_toInt32]
    rfl
  · refine (Returns.word32 .little).bind fun w s hs => Returns.pure ⟨?_, trivial⟩
    rw [List.append_nil, hs]
    rfl
  · refine (Returns.word64 .little).bind fun w s hs => Returns.pure ⟨?_, trivial⟩
    rw [List.append_nil, hs, Constant.encode, UInt64.toUInt64_toInt64]
    rfl
  · refine (Returns.word64 .little).bind fun w s hs => Returns.pure ⟨?_, trivial⟩
    rw [List.append_nil, hs]
    rfl
  · refine returns_word16.bind fun w s hs => Returns.pure ⟨?_, trivial⟩
    rw [List.append_nil, hs]
    rfl
  · exact Returns.throw _

theorem returns_member : Returns Member.read (fun member s => s = member.encode ∧ True) := by
  refine returns_word16.bind fun name s₁ h₁ => returns_word16.bind fun descriptor s₂ h₂ =>
    Returns.pure ⟨?_, trivial⟩
  rw [List.append_nil, h₁, h₂]
  rfl

theorem returns_field :
    Returns Field.read (fun field s => s = field.encode ∧ field.constantValue ≠ some absent) := by
  refine returns_word16.bind fun accessFlags s₁ h₁ => returns_word16.bind fun name s₂ h₂ =>
    returns_word16.bind fun descriptor s₃ h₃ => returns_option.bind fun constantValue s₄ h₄ =>
      Returns.pure ⟨?_, h₄.2⟩
  rw [List.append_nil, h₁, h₂, h₃, h₄.1]
  rfl

theorem returns_lineEntry : Returns LineEntry.read (fun entry s => s = entry.encode ∧ True) := by
  refine returns_word16.bind fun offset s₁ h₁ => returns_word16.bind fun line s₂ h₂ =>
    Returns.pure ⟨?_, trivial⟩
  rw [List.append_nil, h₁, h₂]
  rfl

theorem returns_handler :
    Returns Handler.read (fun handler s => s = handler.encode ∧
      handler.catchType ≠ some absent) := by
  refine returns_word16.bind fun start s₁ h₁ => returns_word16.bind fun stop s₂ h₂ =>
    returns_word16.bind fun entry s₃ h₃ => returns_option.bind fun catchType s₄ h₄ =>
      Returns.pure ⟨?_, h₄.2⟩
  rw [List.append_nil, h₁, h₂, h₃, h₄.1]
  rfl

theorem returns_code :
    Returns readCode (fun code s => s = encodeCode code ∧ code.length < 2 ^ 32) := by
  refine (Returns.word32 .little).bind fun n s hs => (Returns.take n.toNat).mapError.mono ?_
  rintro code s' ⟨rfl, hlength⟩
  have hn := n.toNat_lt
  rw [encodeCode, hlength, UInt32.ofNat_toNat, hs]
  exact ⟨rfl, hn⟩

theorem returns_method :
    Returns Method.read (fun method s => s = method.encode ∧ method.Encodable) := by
  refine returns_word16.bind fun accessFlags s₁ h₁ => returns_word16.bind fun name s₂ h₂ =>
    returns_word16.bind fun descriptor s₃ h₃ => returns_word16.bind fun maxStack s₄ h₄ =>
    returns_word16.bind fun maxLocals s₅ h₅ => returns_code.bind fun code s₆ h₆ =>
    (returns_list returns_lineEntry).bind fun lines s₇ h₇ =>
    (returns_list returns_handler).bind fun handlers s₈ h₈ =>
      Returns.pure ⟨?_, h₆.2, h₇.2.1, h₈.2.1, h₈.2.2⟩
  rw [List.append_nil, h₁, h₂, h₃, h₄, h₅, h₆.1, h₇.1, h₈.1]
  rfl

/-- **Whatever is read is encodable, and its encoding is what was read.** -/
theorem returns_image : Returns Image.read (fun image s => s = image.encode ∧ image.Encodable) := by
  refine (Returns.take magic.length).bind fun opening s₁ h₁ =>
    returns_word16.bind fun number s₂ h₂ => ?_
  by_cases hheader : opening = magic ∧ number = version
  · obtain ⟨rfl, rfl⟩ := hheader
    refine returns_word16.bind fun accessFlags s₃ h₃ => returns_word16.bind fun thisClass s₄ h₄ =>
      returns_option.bind fun superClass s₅ h₅ => returns_option.bind fun sourceFile s₆ h₆ =>
      (returns_list (returns_word16.mono fun _ _ h => ⟨h, trivial⟩)).bind fun interfaces s₇ h₇ =>
      (returns_list returns_text).bind fun names s₈ h₈ =>
      (returns_list returns_constant).bind fun constants s₉ h₉ =>
      (returns_list returns_member).bind fun members s₁₀ h₁₀ =>
      (returns_list returns_field).bind fun fields s₁₁ h₁₁ =>
      (returns_list returns_method).bind fun methods s₁₂ h₁₂ => Returns.pure ⟨?_, ?_⟩
    · rw [List.append_nil, h₁.1, h₂, h₃, h₄, h₅.1, h₆.1, h₇.1, h₈.1, h₉.1, h₁₀.1, h₁₁.1, h₁₂.1]
      rfl
    · exact {
        interfaces := h₇.2.1
        names := h₈.2.1
        texts := h₈.2.2
        constants := h₉.2.1
        members := h₁₀.2.1
        fields := h₁₁.2.1
        methods := h₁₂.2.1
        lines := fun method hm => (h₁₂.2.2 method hm).lines
        handlers := fun method hm => (h₁₂.2.2 method hm).handlers
        code := fun method hm => (h₁₂.2.2 method hm).code
        superClass := h₅.2
        sourceFile := h₆.2
        constantValues := h₁₁.2.2
        catchTypes := fun method hm => (h₁₂.2.2 method hm).catchTypes }
  · simp only [if_neg hheader]
    exact Returns.throw _

/-! ### The codec -/

theorem ofBytes_of_read {bs rest : Bytes} {image : Image} (h : Image.read bs = .ok (image, rest)) :
    ofBytes bs = .ok image := by
  rw [ofBytes, h]
  rfl

theorem ofBytes_eq_error {bs : Bytes} {e : StreamFault} (h : Image.read bs = .error e) :
    ofBytes bs = .error e := by
  rw [ofBytes, h]
  rfl

theorem exists_read_of_ofBytes {bs : Bytes} {image : Image} (h : ofBytes bs = .ok image) :
    ∃ rest, Image.read bs = .ok (image, rest) := by
  cases hr : Image.read bs with
  | error e => rw [ofBytes_eq_error hr] at h; exact absurd h (by simp)
  | ok p =>
    obtain ⟨image', rest⟩ := p
    rw [ofBytes_of_read hr] at h
    obtain rfl := Except.ok.inj h
    exact ⟨rest, rfl⟩

/-- An image that was written has counts that fit. -/
theorem countsFit_of_toBytes {image : Image} {s : Bytes} (h : image.toBytes = .ok s) :
    image.CountsFit := by
  by_contra hfit
  obtain ⟨n, -, he⟩ := (emits_image image).toBytes_refused hfit
  rw [toBytes, he] at h
  exact absurd h (by simp)

/-- An encodable image is read back from its own bytes, all of them. -/
theorem read_of_toBytes {image : Image} {s : Bytes} (hencodable : image.Encodable)
    (h : image.toBytes = .ok s) : Image.read s = .ok (image, []) := by
  obtain rfl : image.encode = s :=
    Except.ok.inj (((emits_image image).toBytes hencodable.toCountsFit).symm.trans h)
  exact (reads_image hencodable).alone

/-- **Bytes and images determine each other.** An encodable image is written, read back with
anything behind it, and missed as soon as a byte is missing; what is read is written back to the
bytes that were read; and the only thing that stops the writing is a count that does not fit. -/
theorem toBytes_ofBytes_exact :
    (∀ image : Image, image.Encodable → ∃ s, image.toBytes = .ok s ∧
      (∀ t, Image.read (s ++ t) = .ok (image, t) ∧ ofBytes (s ++ t) = .ok image) ∧
      ∀ p, p <+: s → p ≠ s → ∃ e, ofBytes p = .error e ∧ e.isEndOfInput = true) ∧
    (∀ (b : Bytes) (image : Image), ofBytes b = .ok image →
      ∃ s, image.toBytes = .ok s ∧ s <+: b) ∧
    ∀ image : Image,
      ((∃ e, image.toBytes = .error e) ↔ ¬ image.CountsFit) ∧
      ∀ e, image.toBytes = .error e → ∃ n, 0xFFFF < n ∧ e = .tooLong n := by
  refine ⟨?_, ?_, ?_⟩
  · intro image h
    have hread := reads_image h
    refine ⟨image.encode, (emits_image image).toBytes h.toCountsFit, ?_, ?_⟩
    · intro t
      exact ⟨hread.whole t, ofBytes_of_read (hread.whole t)⟩
    · intro p hp hne
      obtain ⟨e, he, hend⟩ := hread.cut p hp hne
      exact ⟨e, ofBytes_eq_error he, hend⟩
  · intro b image h
    obtain ⟨rest, hr⟩ := exists_read_of_ofBytes h
    obtain ⟨s, rfl, rfl, henc⟩ := returns_image b image rest hr
    exact ⟨image.encode, (emits_image image).toBytes henc.toCountsFit, List.prefix_append _ _⟩
  · intro image
    refine ⟨⟨?_, ?_⟩, fun e he => ((emits_image image).toBytes_eq_error he).2⟩
    · rintro ⟨e, he⟩
      exact ((emits_image image).toBytes_eq_error he).1
    · intro h
      obtain ⟨n, -, he⟩ := (emits_image image).toBytes_refused h
      exact ⟨_, he⟩

/-- A class with a string, a float that is not a number, and a method with code and tables. -/
def sampleImage : Image where
  accessFlags := 33
  thisClass := 1
  superClass := some 2
  sourceFile := none
  interfaces := [4]
  names := ["m", "()V", "é"]
  constants := [.string 2, .float 0x7FC00001]
  members := [⟨0, 1⟩]
  fields := [⟨1, 0, 1, some 1⟩]
  methods := [⟨1, 0, 1, 1, 0, [0, 0], [⟨0, 7⟩], [⟨0, 1, 1, some 3⟩]⟩]

/-- The image is encodable, and is not with one interface more than can be counted. -/
theorem sampleImage_exact : sampleImage.Encodable ∧
    (∃ s, sampleImage.toBytes = .ok s ∧ Image.read (s ++ [9]) = .ok (sampleImage, [9]) ∧
      (∀ p, p <+: s → p ≠ s → ∃ e, ofBytes p = .error e ∧ e.isEndOfInput = true) ∧
      ∃ s', sampleImage.toBytes = .ok s' ∧ s' <+: s ++ [9]) ∧
    ∃ e, { sampleImage with interfaces := List.replicate 0x10000 4 }.toBytes = .error e := by
  have hencodable : sampleImage.Encodable := by
    refine ⟨⟨?_, ?_, ?_, ?_, ?_, ?_, ?_, ?_, ?_⟩, ?_, ?_, ?_, ?_, ?_⟩ <;> decide +kernel
  obtain ⟨hwrite, hread, hfail⟩ := toBytes_ofBytes_exact
  obtain ⟨s, hs, hwhole, hcut⟩ := hwrite sampleImage hencodable
  refine ⟨hencodable, ⟨s, hs, (hwhole [9]).1, hcut, hread _ _ (hwhole [9]).2⟩, ?_⟩
  refine (hfail _).1.mpr fun hfit => ?_
  have hinterfaces := hfit.interfaces
  rw [List.length_replicate] at hinterfaces
  exact absurd hinterfaces (by decide)

end ClassImage.Image
