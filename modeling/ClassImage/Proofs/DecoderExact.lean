import ClassImage.Proofs.Grammar

/-!
# The decoder accepts exactly the grammar

The decoder is followed through each form in both directions: what it returns was spelled by the
bytes that it took (`returns_read`), and every spelling is read (`consumesAs_read`). So it cuts off
exactly the instructions of the grammar (`cuts_readCanonical`). An instruction that it refuses is
named by its offset (`blamed_of_readChecked`).

Offsets are numbers of 32 bits, so all this is said of code of at most `2 ^ 32` bytes.

* `decode_exact`: which code is decoded, into what, and what is blamed otherwise;
* `farJump_refused`: longer code, in which a jump is refused because its target is no such number.
-/

namespace ClassImage.Bytecode

open ClassFile (Fault LineNumber)

/-! ### Numbers and distances -/

/-- The reader takes the bytes off the front of anything and returns the value. How it fails on
fewer bytes is left open. -/
abbrev Consumes {α : Type} (reader : Reader Fault α) (s : Bytes) (a : α) : Prop :=
  Reads (fun _ => True) reader s a

theorem consumes_byte (b : UInt8) : Consumes Reader.byte [b] b := Reads.byte trivial b

theorem consumes_word16 (word : UInt16) : Consumes (Reader.word16 .big) (word16 word) word :=
  Reads.word16 trivial .big word

theorem consumes_readInt8 (number : Int8) : Consumes readInt8 [number.toUInt8] number := by
  have h : Consumes readInt8 [number.toUInt8] number.toUInt8.toInt8 :=
    (consumes_byte number.toUInt8).bind_pure
  rwa [Int8.toInt8_toUInt8] at h

theorem consumes_readInt16 (number : Int16) : Consumes readInt16 (signed16 number) number := by
  have h : Consumes readInt16 (signed16 number) number.toUInt16.toInt16 :=
    (consumes_word16 number.toUInt16).bind_pure
  rwa [Int16.toInt16_toUInt16] at h

theorem consumes_readInt32 (number : Int32) : Consumes readInt32 (signed32 number) number := by
  have hword : Consumes (Reader.word32 .big) (signed32 number) number.toUInt32 :=
    Reads.word32 trivial .big number.toUInt32
  have h : Consumes readInt32 (signed32 number) number.toUInt32.toInt32 := hword.bind_pure
  rwa [Int32.toInt32_toUInt32] at h

theorem returns_readInt8 : Returns readInt8 fun number s => s = [number.toUInt8] := by
  refine Returns.byte.bind fun b s hs => Returns.pure ?_
  rw [List.append_nil, hs, UInt8.toUInt8_toInt8]

theorem returns_word16 : Returns (Reader.word16 .big : Reader Fault UInt16) fun word s =>
    s = word16 word :=
  Returns.word16 .big

theorem returns_readInt16 : Returns readInt16 fun number s => s = signed16 number := by
  refine returns_word16.bind fun word s hs => Returns.pure ?_
  rw [List.append_nil, hs, signed16, UInt16.toUInt16_toInt16]

theorem returns_readInt32 : Returns readInt32 fun number s => s = signed32 number := by
  refine (Returns.word32 .big).bind fun word s hs => Returns.pure ?_
  rw [List.append_nil, hs, signed32, UInt32.toUInt32_toInt32]

theorem landing_of_lands {offset : Nat} {distance : Int} (h : Lands offset distance)
    (hword : destination offset distance < UInt32.size) :
    landing offset distance = .ok (destination offset distance) := by
  rw [Lands] at h
  rw [destination] at hword
  rw [landing, destination]
  split
  · rename_i target heq
    rw [heq] at hword ⊢
    exact if_pos hword
  · rename_i n heq
    rw [heq] at h
    exact absurd h (by simp)

theorem landing_of_not_lands {offset : Nat} {distance : Int}
    (h : ¬ (Lands offset distance ∧ destination offset distance < UInt32.size)) :
    landing offset distance = .error (.branchOutside offset (offset + distance)) := by
  rw [Lands, destination] at h
  rw [landing]
  split
  · rename_i target heq
    rw [heq] at h ⊢
    exact if_neg fun hword => h ⟨Int.natCast_nonneg target, hword⟩
  · rename_i n heq
    rw [heq]

theorem consumes_landing {offset : Nat} {distance : Int} (h : Lands offset distance)
    (hword : destination offset distance < UInt32.size) :
    Consumes (liftM (landing offset distance)) [] (destination offset distance) := by
  rw [landing_of_lands h hword]
  exact Reads.pure

theorem returns_landing (offset : Nat) (distance : Int) :
    Returns (liftM (landing offset distance) : Reader Fault Nat) fun target s =>
      s = [] ∧ target = destination offset distance ∧ Lands offset distance := by
  by_cases h : Lands offset distance ∧ destination offset distance < UInt32.size
  · rw [landing_of_lands h.1 h.2]
    exact Returns.pure ⟨rfl, rfl, h.1⟩
  · rw [landing_of_not_lands h]
    exact Returns.throw _

theorem consumes_readTarget {offset : Nat} {distance : Int32} (h : Lands offset distance.toInt)
    (hword : destination offset distance.toInt < UInt32.size) :
    Consumes (readTarget offset) (signed32 distance) (destination offset distance.toInt) := by
  rw [← List.append_nil (signed32 distance)]
  exact (consumes_readInt32 distance).bind (consumes_landing h hword)

theorem returns_readTarget (offset : Nat) : Returns (readTarget offset) fun target s =>
    ∃ distance : Int32, s = signed32 distance ∧ target = destination offset distance.toInt ∧
      Lands offset distance.toInt := by
  refine returns_readInt32.bind fun distance s hs => (returns_landing offset distance.toInt).mono ?_
  rintro target s' ⟨rfl, htarget, hlands⟩
  rw [List.append_nil]
  exact ⟨distance, hs, htarget, hlands⟩

theorem consumes_padding {offset : Nat} {pad : Bytes} (h : Aligns offset pad) :
    Consumes (Reader.take (padding offset)) pad pad := by
  have hlength : padding offset = pad.length := by
    have hle := h.length_le
    have haligned := h.aligned
    rw [padding]
    omega
  rw [hlength]
  exact Reads.take trivial pad

theorem aligns_of_length {offset : Nat} {pad : Bytes} (h : pad.length = padding offset) :
    Aligns offset pad := by
  rw [padding] at h
  exact ⟨by omega, by omega⟩

/-! ### What is read was spelled -/

section Returns

variable {offset : Nat} {opcode : UInt8}

theorem returns_readTableSwitch : Returns (readTableSwitch offset) fun result t =>
    Completes offset Form.tableSwitch.opcode .tableSwitch t result.1.opcode result.1.operands := by
  refine (Returns.take _).bind fun pad s hpad => ?_
  refine (returns_readTarget offset).bind fun default s₁ hdefault => ?_
  refine returns_readInt32.bind fun low s₂ hlow => returns_readInt32.bind fun high s₃ hhigh => ?_
  split
  · exact (Returns.throw (P := fun _ _ => False) _).bind fun _ _ h => h.elim
  · rename_i hle
    rw [Int32.lt_iff_toInt_lt] at hle
    refine (Returns.exactly_map _ (returns_readTarget offset)).bind fun targets s₄ htargets =>
      Returns.pure ?_
    obtain ⟨rfl, hlength⟩ := hpad
    obtain ⟨distance, rfl, rfl, hlands⟩ := hdefault
    obtain ⟨distances, rfl, hcount, rfl, hdistances⟩ := htargets
    subst hlow hhigh
    rw [List.append_nil]
    exact .tableSwitch (aligns_of_length hlength) hlands (by omega) (by omega) hdistances

theorem returns_case (offset : Nat) : Returns (do
      let key ← readInt32
      let target ← readTarget offset
      return (key, target)) fun entry s => ∃ spelled : Int32 × Int32,
        s = signed32 spelled.1 ++ signed32 spelled.2 ∧
        entry = (spelled.1, destination offset spelled.2.toInt) ∧ Lands offset spelled.2.toInt := by
  refine returns_readInt32.bind fun key s hkey => (returns_readTarget offset).bind
    fun target s' htarget =>
    Returns.pure ?_
  obtain ⟨distance, rfl, rfl, hlands⟩ := htarget
  rw [List.append_nil, hkey]
  exact ⟨(key, distance), rfl, rfl, hlands⟩

theorem returns_readLookupSwitch : Returns (readLookupSwitch offset) fun result t =>
    Completes offset Form.lookupSwitch.opcode .lookupSwitch t result.1.opcode
      result.1.operands := by
  refine (Returns.take _).bind fun pad s hpad => ?_
  refine (returns_readTarget offset).bind fun default s₁ hdefault => ?_
  refine returns_readInt32.bind fun count s₂ hcount => ?_
  split
  · exact (Returns.throw (P := fun _ _ => False) _).bind fun _ _ h => h.elim
  · rename_i hneg
    have hzero : 0 ≤ count.toInt := by simpa [Int32.lt_iff_toInt_lt] using hneg
    refine (Returns.exactly_map _ (returns_case offset)).bind fun cases s₃ hcases => Returns.pure ?_
    obtain ⟨rfl, hpadding⟩ := hpad
    obtain ⟨distance, rfl, rfl, hlands⟩ := hdefault
    obtain ⟨spelled, rfl, hlength, rfl, hspelled⟩ := hcases
    subst hcount
    rw [List.append_nil]
    exact .lookupSwitch (aligns_of_length hpadding) hlands (by omega) hspelled

theorem returns_readWide (opcode : UInt8) : Returns (readWide offset) fun result t =>
    Completes offset opcode .wide t result.1.opcode result.1.operands := by
  refine Returns.byte.bind fun modified s hs => ?_
  subst hs
  split
  · rename_i op hform
    refine returns_word16.bind fun slot s' hs' => Returns.pure ?_
    have hopcode : (Op.localVar op slot).opcode = modified := Form.opcode_of_ofOpcode? hform
    rw [List.append_nil, hs', hopcode]
    exact .wideLocal (Form.kindOf_of_ofOpcode? hform) slot
  · rename_i hform
    refine returns_word16.bind fun slot s' hs' => returns_readInt16.bind fun amount s'' hs'' =>
      Returns.pure ?_
    have hopcode : (Op.increment slot amount).opcode = modified := Form.opcode_of_ofOpcode? hform
    rw [List.append_nil, hs', hs'', hopcode]
    exact .wideIncrement (Form.kindOf_of_ofOpcode? hform) slot amount
  · exact Returns.throw _

/-- Operations on a constant differ only in the opcode. -/
theorem returns_constant {make : UInt16 → Op} {size : Nat}
    (hopcode : ∀ index, (make index).opcode = opcode)
    (hoperands : ∀ index, (make index).operands = .constant index) :
    Returns (readSlot >>= fun index => pure (make index, size)) fun result t =>
      Completes offset opcode .constant t result.1.opcode result.1.operands := by
  refine returns_word16.bind fun index s hs => Returns.pure ?_
  rw [List.append_nil, hs, hopcode, hoperands]
  exact .constant index

/-- **What is read was spelled by the bytes that were taken.** -/
theorem returns_read {form : Form} (hform : Form.ofOpcode? opcode = some form) :
    Returns (form.read offset) fun result t =>
      Completes offset opcode form.kind t result.1.opcode result.1.operands := by
  obtain rfl := Form.opcode_of_ofOpcode? hform
  cases form with
  | plain | intConst => exact Returns.pure .simple
  | bytePush =>
    refine returns_readInt8.bind fun value s hs => Returns.pure ?_
    rw [List.append_nil, hs]
    exact .byte value
  | shortPush =>
    refine returns_readInt16.bind fun value s hs => Returns.pure ?_
    rw [List.append_nil, hs]
    exact .short value
  | loadNear =>
    refine Returns.byte.bind fun index s hs => Returns.pure ?_
    have hopcode : (Op.load false index.toUInt16).opcode = 0x13 := Form.opcode_load
    rw [List.append_nil, hs, hopcode]
    exact .nearConstant index
  | load | field | onClass => exact returns_constant (fun _ => rfl) fun _ => rfl
  | implicitLocal op slot =>
    obtain ⟨hgeneral, hslot⟩ := Form.general_of_ofOpcode? hform
    refine Returns.pure ?_
    have hopcode : (Op.localVar op slot).opcode = generalOf (Form.implicitLocal op slot).opcode :=
      hgeneral
    have hoperands : (Op.localVar op slot).operands =
        .localVar (slotOf (Form.implicitLocal op slot).opcode) :=
      congrArg Operands.localVar hslot
    rw [hopcode, hoperands]
    exact .implicitLocal
  | localVar op =>
    refine Returns.byte.bind fun slot s hs => Returns.pure ?_
    rw [List.append_nil, hs]
    exact .localVar slot
  | increment =>
    refine Returns.byte.bind fun slot s hs => returns_readInt8.bind fun amount s' hs' =>
      Returns.pure ?_
    rw [List.append_nil, hs, hs']
    exact .increment slot amount
  | branch jump =>
    refine returns_readInt16.bind fun distance s hs =>
      (returns_landing offset _).bind fun target s' hs' =>
      Returns.pure ?_
    obtain ⟨rfl, rfl, hlands⟩ := hs'
    rw [List.append_nil, List.append_nil, hs]
    exact .branch hlands
  | wideBranch jump =>
    refine (returns_readTarget offset).bind fun target s hs => Returns.pure ?_
    obtain ⟨distance, rfl, rfl, hlands⟩ := hs
    have hopcode : (Op.branch jump (destination offset distance.toInt)).opcode =
        (Form.wideBranch jump).opcode - 0x21 := Form.narrow_of_ofOpcode? hform
    rw [List.append_nil, hopcode]
    exact .wideBranch hlands
  | tableSwitch => exact returns_readTableSwitch
  | lookupSwitch => exact returns_readLookupSwitch
  | invoke invocation =>
    cases invocation with
    | virtual | special | static => exact returns_constant (fun _ => rfl) fun _ => rfl
    | interface =>
      refine returns_word16.bind fun index s hs => Returns.byte.bind fun count s' hs' =>
        Returns.byte.bind fun zero s'' hs'' => Returns.pure ?_
      rw [List.append_nil, hs, hs', hs'']
      exact .interfaceMethod index count zero
  | invokeDynamic =>
    refine returns_word16.bind fun index s hs => returns_word16.bind fun zeros s' hs' =>
      Returns.pure ?_
    rw [List.append_nil, hs, hs']
    exact .dynamicMethod index zeros
  | newArray =>
    refine Returns.byte.bind fun code s hs => Returns.pure ?_
    rw [List.append_nil, hs]
    exact .arrayType code
  | newMultiArray =>
    refine returns_word16.bind fun index s hs => Returns.byte.bind fun dimensions s' hs' =>
      Returns.pure ?_
    rw [List.append_nil, hs, hs']
    exact .multiArray index dimensions
  | wide =>
    rw [Form.read]
    exact returns_readWide Form.wide.opcode

end Returns

/-! ### What is spelled is read -/

section Consumes

variable {offset : Nat} {opcode opcode' : UInt8} {t : Bytes} {operands : Operands}

/-- The reader takes the bytes and returns an operation with a given canonical form. -/
def ConsumesAs (reader : Reader Fault (Op × Nat)) (t : Bytes) (canonical : UInt8 × Operands) :
    Prop :=
  ∃ op size, op.canonical = canonical ∧ Consumes reader t (op, size)

theorem consumesAs_readTableSwitch (h : Completes offset opcode .tableSwitch t opcode' operands)
    (hword : ∀ target ∈ operands.targets, target < UInt32.size) :
    ConsumesAs (readTableSwitch offset) t (Form.tableSwitch.opcode, operands) := by
  cases h with
  | @tableSwitch pad hpad default low high distances hdefault hle hcount hdistances =>
    obtain ⟨hfirst, hrest⟩ := List.forall_mem_cons.mp hword
    have hlt : ¬ high < low := by rw [Int32.lt_iff_toInt_lt]; omega
    have hlength : (high.toInt - low.toInt + 1).toNat = distances.length := by omega
    have htargets : Consumes (Reader.exactly distances.length (readTarget offset))
        (distances.flatMap signed32) (distances.map fun distance =>
          destination offset distance.toInt) :=
      Reads.exactly fun distance hmem =>
        consumes_readTarget (hdistances distance hmem) (hrest _ (List.mem_map_of_mem hmem))
    refine ⟨.tableSwitch (destination offset default.toInt) low
      (distances.map fun distance => destination offset distance.toInt),
      1 + padding offset + 12 + 4 * distances.length, rfl, ?_⟩
    refine (consumes_padding hpad).bind ((consumes_readTarget hdefault hfirst).bind
      ((consumes_readInt32 low).bind ((consumes_readInt32 high).bind ?_)))
    rw [if_neg hlt, hlength]
    exact htargets.bind_pure

theorem consumesAs_readLookupSwitch (h : Completes offset opcode .lookupSwitch t opcode' operands)
    (hword : ∀ target ∈ operands.targets, target < UInt32.size) :
    ConsumesAs (readLookupSwitch offset) t (Form.lookupSwitch.opcode, operands) := by
  cases h with
  | @lookupSwitch pad hpad default count cases hdefault hcount hcases =>
    obtain ⟨hfirst, hrest⟩ := List.forall_mem_cons.mp hword
    rw [List.map_map] at hrest
    have hlt : ¬ count < 0 := by
      rw [Int32.lt_iff_toInt_lt, Int32.toInt_zero]
      omega
    have hlength : count.toInt.toNat = cases.length := by omega
    have hcase : ∀ entry ∈ cases, Consumes (do
        let key ← readInt32
        let target ← readTarget offset
        return (key, target)) (signed32 entry.1 ++ signed32 entry.2)
        (entry.1, destination offset entry.2.toInt) := by
      intro entry hmem
      exact (consumes_readInt32 entry.1).bind
        (consumes_readTarget (hcases entry hmem) (hrest _ (List.mem_map_of_mem hmem))).bind_pure
    refine ⟨.lookupSwitch (destination offset default.toInt)
      (cases.map fun entry => (entry.1, destination offset entry.2.toInt)),
      1 + padding offset + 8 + 8 * cases.length, rfl, ?_⟩
    refine (consumes_padding hpad).bind ((consumes_readTarget hdefault hfirst).bind
      ((consumes_readInt32 count).bind ?_))
    rw [if_neg hlt, hlength]
    exact (Reads.exactly hcase).bind_pure

theorem consumesAs_readWide (h : Completes offset opcode .wide t opcode' operands) :
    ConsumesAs (readWide offset) t (opcode', operands) := by
  cases h with
  | wideLocal hkind slot =>
    obtain ⟨form, hform, hform'⟩ := Form.exists_of_kindOf hkind
    obtain ⟨op, rfl⟩ := Form.exists_localVar_of_kind hform'
    refine ⟨.localVar op slot, 4, ?_, (consumes_byte _).bind ?_⟩
    · exact congrArg (·, _) (Form.opcode_of_ofOpcode? hform)
    · rw [hform]
      exact (consumes_word16 slot).bind_pure
  | wideIncrement hkind slot amount =>
    obtain ⟨form, hform, hform'⟩ := Form.exists_of_kindOf hkind
    obtain rfl := Form.eq_increment_of_kind hform'
    refine ⟨.increment slot amount, 6, ?_, (consumes_byte _).bind ?_⟩
    · exact congrArg (·, _) (Form.opcode_of_ofOpcode? hform)
    · rw [hform]
      exact (consumes_word16 slot).bind (consumes_readInt16 amount).bind_pure

theorem consumesAs_constant {make : UInt16 → Op} {size : Nat}
    (hopcode : ∀ index, (make index).opcode = opcode)
    (hoperands : ∀ index, (make index).operands = .constant index)
    (h : Completes offset opcode .constant t opcode' operands) :
    ConsumesAs (readSlot >>= fun index => pure (make index, size)) t (opcode', operands) := by
  cases h with
  | constant index =>
    exact ⟨make index, size, Prod.ext (hopcode index) (hoperands index),
      (consumes_word16 index).bind_pure⟩

/-- **What is spelled is read**, if its targets are 32-bit numbers. -/
theorem consumesAs_read {form : Form} (hform : Form.ofOpcode? opcode = some form)
    (h : Completes offset opcode form.kind t opcode' operands)
    (hword : ∀ target ∈ operands.targets, target < UInt32.size) :
    ConsumesAs (form.read offset) t (opcode', operands) := by
  obtain rfl := Form.opcode_of_ofOpcode? hform
  cases form with
  | plain op =>
    cases h
    exact ⟨.plain op, 1, rfl, Reads.pure⟩
  | intConst value =>
    cases h
    exact ⟨.pushInt .implicit value, 1, rfl, Reads.pure⟩
  | bytePush =>
    cases h with
    | byte value =>
      exact ⟨.pushInt .byte value.toInt32, 2, rfl, (consumes_readInt8 value).bind_pure⟩
  | shortPush =>
    cases h with
    | short value =>
      exact ⟨.pushInt .short value.toInt32, 3, rfl, (consumes_readInt16 value).bind_pure⟩
  | loadNear =>
    cases h with
    | nearConstant index =>
      exact ⟨.load false index.toUInt16, 2, congrArg (·, _) Form.opcode_load,
        (consumes_byte index).bind_pure⟩
  | load | field | onClass => exact consumesAs_constant (fun _ => rfl) (fun _ => rfl) h
  | implicitLocal op slot =>
    obtain ⟨hgeneral, hslot⟩ := Form.general_of_ofOpcode? hform
    cases h
    exact ⟨.localVar op slot, 1, Prod.ext hgeneral (congrArg Operands.localVar hslot), Reads.pure⟩
  | localVar op =>
    cases h with
    | localVar slot => exact ⟨.localVar op slot.toUInt16, 2, rfl, (consumes_byte slot).bind_pure⟩
  | increment =>
    cases h with
    | increment slot amount =>
      exact ⟨.increment slot.toUInt16 amount.toInt16, 3, rfl,
        (consumes_byte slot).bind (consumes_readInt8 amount).bind_pure⟩
  | branch jump =>
    cases h with
    | @branch distance hlands =>
      refine ⟨.branch jump (destination offset distance.toInt), 3, rfl, ?_⟩
      rw [← List.append_nil (signed16 distance)]
      exact (consumes_readInt16 distance).bind
        (consumes_landing hlands (hword _ List.mem_cons_self)).bind_pure
  | wideBranch jump =>
    cases h with
    | @wideBranch distance hlands =>
      exact ⟨.branch jump (destination offset distance.toInt), 5,
        congrArg (·, _) (Form.narrow_of_ofOpcode? hform),
        (consumes_readTarget hlands (hword _ List.mem_cons_self)).bind_pure⟩
  | tableSwitch =>
    have hresult := consumesAs_readTableSwitch h hword
    cases h
    exact hresult
  | lookupSwitch =>
    have hresult := consumesAs_readLookupSwitch h hword
    cases h
    exact hresult
  | invoke invocation =>
    cases invocation with
    | virtual | special | static => exact consumesAs_constant (fun _ => rfl) (fun _ => rfl) h
    | interface =>
      cases h with
      | interfaceMethod index count zero =>
        exact ⟨.invoke (.interface count) index, 5, rfl,
          (consumes_word16 index).bind ((consumes_byte count).bind (consumes_byte zero).bind_pure)⟩
  | invokeDynamic =>
    cases h with
    | dynamicMethod index zeros =>
      exact ⟨.invokeDynamic index, 5, rfl, (consumes_word16 index).bind
        (consumes_word16 zeros).bind_pure⟩
  | newArray =>
    cases h with
    | arrayType code => exact ⟨.newArray code, 2, rfl, (consumes_byte code).bind_pure⟩
  | newMultiArray =>
    cases h with
    | multiArray index dimensions =>
      exact ⟨.newMultiArray index dimensions, 4, rfl,
        (consumes_word16 index).bind (consumes_byte dimensions).bind_pure⟩
  | wide =>
    rw [Form.read]
    exact consumesAs_readWide h

end Consumes

/-! ### What is blamed -/

/-- The offset that a fault names. -/
def blamed : Fault → Option Nat
  | .unknownOpcode _ offset | .truncatedInstruction offset | .badWide _ offset
  | .badSwitchBounds offset
  | .branchOutside offset _ => some offset
  | _ => none

/-- Where the reader fails, the input ended or the offset is blamed. -/
def Blames {α : Type} (offset : Nat) (reader : Reader Fault α) : Prop :=
  ∀ bs fault, reader bs = .error fault → fault = .truncated ∨ blamed fault = some offset

namespace Blames

variable {α β : Type} {offset : Nat} {reader : Reader Fault α}

theorem pure (a : α) : Blames offset (Pure.pure a) := Faults.pure a

theorem throw {fault : Fault} (h : blamed fault = some offset) :
    Blames offset (MonadExcept.throw fault : Reader Fault α) := Faults.throw (Or.inr h)

theorem bind {next : α → Reader Fault β} (h : Blames offset reader)
    (h' : ∀ a, Blames offset (next a)) :
    Blames offset (reader >>= next) := Faults.bind h h'

theorem byte : Blames offset Reader.byte := Faults.byte (Or.inl rfl)

theorem take (n : Nat) : Blames offset (Reader.take n) := Faults.take (ε := Fault) (Or.inl rfl) n

theorem word16 : Blames offset (Reader.word16 .big) := Faults.word16 (ε := Fault) (Or.inl rfl) .big

theorem word32 : Blames offset (Reader.word32 .big) := Faults.word32 (ε := Fault) (Or.inl rfl) .big

theorem exactly (h : Blames offset reader) (n : Nat) : Blames offset (Reader.exactly n reader) :=
  Faults.exactly h n

theorem readInt8 : Blames offset readInt8 := byte.bind fun _ => pure _

theorem readInt16 : Blames offset readInt16 := word16.bind fun _ => pure _

theorem readInt32 : Blames offset readInt32 := word32.bind fun _ => pure _

theorem landing (distance : Int) : Blames offset (liftM (landing offset distance)) := by
  by_cases h : Lands offset distance ∧ destination offset distance < UInt32.size
  · rw [landing_of_lands h.1 h.2]
    exact pure _
  · rw [landing_of_not_lands h]
    exact throw rfl

theorem readTarget : Blames offset (readTarget offset) :=
  readInt32.bind fun distance => landing distance.toInt

theorem read (form : Form) : Blames offset (form.read offset) := by
  cases form with
  | plain | intConst | implicitLocal => exact pure _
  | bytePush => exact readInt8.bind fun _ => pure _
  | shortPush => exact readInt16.bind fun _ => pure _
  | loadNear | localVar | newArray => exact byte.bind fun _ => pure _
  | load | field | onClass => exact word16.bind fun _ => pure _
  | increment => exact byte.bind fun _ => readInt8.bind fun _ => pure _
  | branch => exact readInt16.bind fun distance => (landing distance.toInt).bind fun _ => pure _
  | wideBranch => exact readTarget.bind fun _ => pure _
  | tableSwitch =>
    refine (take _).bind fun _ => readTarget.bind fun _ => readInt32.bind fun low =>
      readInt32.bind fun high => ?_
    split
    · exact (throw rfl).bind fun _ => (readTarget.exactly _).bind fun _ => pure _
    · exact (readTarget.exactly _).bind fun _ => pure _
  | lookupSwitch =>
    have hcases : ∀ n, Blames offset (Reader.exactly n do
        let key ← Bytecode.readInt32
        let target ← Bytecode.readTarget offset
        return (key, target)) :=
      (readInt32.bind fun key => readTarget.bind fun target => pure _).exactly
    refine (take _).bind fun _ => readTarget.bind fun _ => readInt32.bind fun count => ?_
    split
    · exact (throw rfl).bind fun _ => (hcases _).bind fun _ => pure _
    · exact (hcases _).bind fun _ => pure _
  | wide =>
    refine byte.bind fun modified => ?_
    split
    · exact word16.bind fun _ => pure _
    · exact word16.bind fun _ => readInt16.bind fun _ => pure _
    · exact throw rfl
  | invokeDynamic => exact word16.bind fun _ => word16.bind fun _ => pure _
  | newMultiArray => exact word16.bind fun _ => byte.bind fun _ => pure _
  | invoke invocation =>
    cases invocation with
    | virtual | special | static => exact word16.bind fun _ => pure _
    | interface => exact word16.bind fun _ => byte.bind fun _ => byte.bind fun _ => pure _

end Blames

/-- An instruction that is refused is named by its offset. -/
theorem blamed_of_readChecked {length offset : Nat} {bs : Bytes} {fault : Fault}
    (h : readChecked length offset bs = .error fault) : blamed fault = some offset := by
  have hread : Blames offset (readOp offset) := by
    refine Blames.byte.bind fun opcode => ?_
    split
    · exact Blames.read _
    · exact Blames.throw rfl
  rw [readChecked, Reader.bind_apply, Reader.mapError] at h
  cases hop : readOp offset bs with
  | error fault' =>
    rw [hop] at h
    obtain rfl := Except.error.inj h
    rcases hread bs fault' hop with rfl | hblamed
    · rfl
    · cases fault' <;> first | exact hblamed | simp [blamed] at hblamed
  | ok result =>
    obtain ⟨⟨op, size⟩, rest⟩ := result
    simp only [hop] at h
    cases hfind : op.jumpTargets.find? fun target => length ≤ target with
    | some target =>
      simp only [hfind] at h
      obtain rfl := Except.error.inj h
      rfl
    | none =>
      simp only [hfind, Reader.pure_apply] at h
      simp at h

/-! ### Instructions -/

section Instructions

variable {length offset : Nat}

theorem returns_readOp :
    Returns (readOp offset) fun result s => Spells offset s result.1.canonical := by
  refine Returns.byte.bind fun opcode s hs => ?_
  subst hs
  split
  · rename_i form hform
    refine (returns_read hform).mono fun result t h => ?_
    exact ⟨opcode, form.kind, t, rfl, Form.kindOf_of_ofOpcode? hform, h⟩
  · exact Returns.throw _

theorem returns_readChecked :
    Returns (readChecked length offset) fun result s =>
      Stands length offset s result.1.canonical := by
  refine returns_readOp.mapError.bind fun result s hs => ?_
  obtain ⟨op, size⟩ := result
  dsimp only
  split
  · exact Returns.throw _
  · rename_i hnone
    refine Returns.pure ?_
    rw [List.append_nil]
    refine ⟨hs, fun target htarget => ?_⟩
    have hmem : target ∈ op.jumpTargets := by
      rw [← op.targets_operands]
      exact htarget
    simpa using List.find?_eq_none.mp hnone target hmem

theorem consumes_readChecked (hlength : length ≤ UInt32.size) {s : Bytes}
    {canonical : UInt8 × Operands} (h : Stands length offset s canonical) :
    ConsumesAs (readChecked length offset) s canonical := by
  obtain ⟨⟨opcode, kind, t, rfl, hkind, hcompletes⟩, htargets⟩ := h
  obtain ⟨form, hform, rfl⟩ := Form.exists_of_kindOf hkind
  obtain ⟨op, size, hcanonical, hconsumes⟩ := consumesAs_read hform hcompletes
    fun target htarget => Nat.lt_of_lt_of_le (htargets target htarget) hlength
  obtain rfl : op.canonical = canonical := hcanonical
  have hread : Consumes (readOp offset) (opcode :: t) (op, size) := by
    refine (consumes_byte opcode).bind ?_
    rw [hform]
    exact hconsumes
  have hinside : op.jumpTargets.find? (fun target => length ≤ target) = none := by
    rw [List.find?_eq_none, ← op.targets_operands]
    intro target htarget
    have hlt := htargets target htarget
    simpa using hlt
  have hchecked : Consumes (readChecked length offset) (opcode :: t ++ []) (op, size) := by
    refine (hread.mapError fun _ _ => trivial).bind ?_
    simp only [hinside]
    exact Reads.pure
  rw [List.append_nil] at hchecked
  exact ⟨op, size, rfl, hchecked⟩

end Instructions

/-- The reader that returns canonical operations. -/
abbrev readCanonical (length : Nat) : Nat → Reader Fault ((UInt8 × Operands) × Nat) :=
  Reader.mapItem Op.canonical (readChecked length)

/-- **The decoder takes off exactly the instructions of the grammar** in code of 32-bit offsets. -/
theorem cuts_readCanonical {length : Nat} (hlength : length ≤ UInt32.size) :
    Cuts (readCanonical length) (Stands length) where
  nonempty := by
    rintro offset s canonical ⟨⟨opcode, kind, t, rfl, -⟩, -⟩
    exact List.cons_ne_nil _ _
  complete := by
    intro offset s canonical h rest
    obtain ⟨op, size, rfl, hconsumes⟩ := consumes_readChecked hlength h
    have hwhole := hconsumes.whole rest
    obtain ⟨s', hs', hsize⟩ := sized_readChecked length offset _ _ _ hwhole
    obtain rfl := List.append_cancel_right hs'
    rw [readCanonical, Reader.mapItem, Reader.bind_of_ok hwhole, Reader.pure_apply,
      hsize, Nat.zero_add]
  sound := by
    intro offset bs canonical size rest h
    obtain ⟨⟨op, size'⟩, middle, hread, hpure⟩ := Reader.exists_of_bind_eq_ok h
    obtain ⟨⟨rfl, rfl⟩, rfl⟩ : (op.canonical = canonical ∧ size' = size) ∧ middle = rest := by
      simpa [Reader.pure_apply] using hpure
    obtain ⟨s, hs, hstands⟩ := returns_readChecked bs _ _ hread
    obtain ⟨s', hs', hsize⟩ := sized_readChecked length offset bs _ _ hread
    obtain rfl : s = s' := List.append_cancel_right (hs.symm.trans hs')
    exact ⟨s, hs, by rw [← Nat.zero_add s.length]; exact hsize, hstands⟩

/-! ### Whole methods -/

/-- The instructions that code consists of, with the canonical operations that they stand for. -/
def IsCode (code : Bytes) (segments : List (Bytes × UInt8 × Operands)) : Prop :=
  Cutting (Stands code.length) 0 segments ∧ joined segments = code

section Decode

variable {code : Bytes} (hlength : code.length ≤ UInt32.size)

include hlength

theorem decode_eq (lines : List LineNumber) :
    (decode code lines).map (List.map fun entry => (entry.offset, entry.op.canonical)) =
      Reader.cut (readCanonical code.length) code := by
  rw [Reader.cut_mapItem]
  cases hcut : Reader.cut (readChecked code.length) code with
  | error fault =>
    rw [decode, hcut]
    rfl
  | ok ops =>
    rw [decode_of_cut hlength hcut]
    show Except.ok _ = Except.ok _
    rw [List.map_map]
    rfl

/-- Code that consists of instructions is decoded into them. -/
theorem decode_of_isCode {segments : List (Bytes × UInt8 × Operands)} (h : IsCode code segments)
    (lines : List LineNumber) : ∃ decoded, decode code lines = .ok decoded ∧
      decoded.map (fun entry => (entry.offset, entry.op.canonical)) = placedFrom 0 segments := by
  have hcut := Reader.cut_joined (cuts_readCanonical hlength) h.1
  rw [h.2, ← decode_eq hlength lines] at hcut
  cases hdecode : decode code lines with
  | error fault =>
    rw [hdecode] at hcut
    exact absurd hcut (by simp [Except.map])
  | ok decoded =>
    rw [hdecode] at hcut
    exact ⟨decoded, rfl, Except.ok.inj hcut⟩

theorem decode_cases (lines : List LineNumber) : (∃ segments, IsCode code segments) ∨
    ∃ segments rest fault, Cutting (Stands code.length) 0 segments ∧
      code = joined segments ++ rest ∧ rest ≠ [] ∧
      readCanonical code.length (joined segments).length rest = .error fault ∧
        decode code lines = .error fault := by
  rcases Reader.cut_cases (cuts_readCanonical hlength) code with
    ⟨segments, hsegments, hcode, -⟩ | ⟨segments, rest, fault, hsegments, hcode, hne, hread, herror⟩
  · exact Or.inl ⟨segments, hsegments, hcode.symm⟩
  · refine Or.inr ⟨segments, rest, fault, hsegments, hcode, hne, hread, ?_⟩
    rw [← decode_eq hlength lines] at herror
    cases hdecode : decode code lines with
    | ok decoded =>
      rw [hdecode] at herror
      exact absurd herror (by simp [Except.map])
    | error fault' =>
      rw [hdecode] at herror
      rw [Except.error.inj herror]

/-- Code that is decoded consists of instructions. -/
theorem exists_isCode_of_decode {lines : List LineNumber} {decoded : List Decoded}
    (h : decode code lines = .ok decoded) : ∃ segments, IsCode code segments := by
  rcases decode_cases hlength lines with hcode | ⟨-, -, fault, -, -, -, -, herror⟩
  · exact hcode
  · rw [herror] at h
    simp at h

/-- The decoded operations are those of the instructions. -/
theorem canonical_of_decode {lines : List LineNumber} {decoded : List Decoded}
    {segments : List (Bytes × UInt8 × Operands)} (h : decode code lines = .ok decoded)
    (hcode : IsCode code segments) :
    decoded.map (fun entry => (entry.offset, entry.op.canonical)) = placedFrom 0 segments ∧
      decoded.map (fun entry => entry.op.canonical) = segments.map Prod.snd := by
  obtain ⟨decoded', hdecode', hplaced⟩ := decode_of_isCode hlength hcode lines
  obtain rfl : decoded = decoded' := Except.ok.inj (h.symm.trans hdecode')
  refine ⟨hplaced, ?_⟩
  rw [← map_snd_placedFrom 0 segments, ← hplaced, List.map_map]
  rfl

end Decode

theorem blamed_of_readCanonical {length offset : Nat} {bs : Bytes} {fault : Fault}
    (h : readCanonical length offset bs = .error fault) : blamed fault = some offset := by
  rw [readCanonical, Reader.mapItem, Reader.bind_apply] at h
  cases hread : readChecked length offset bs with
  | error fault' =>
    rw [hread] at h
    obtain rfl := Except.error.inj h
    exact blamed_of_readChecked hread
  | ok result =>
    rw [hread] at h
    simp [Reader.pure_apply] at h

/-- **The decoder accepts exactly the code that consists of instructions**, in only one way, and
decodes it into their canonical operations at the offsets where they start. For other code it blames
the offset behind the longest sequence of instructions in front of it, where no instruction begins.
All this is said of code whose offsets are 32-bit numbers. -/
theorem decode_exact (code : Bytes) (lines : List LineNumber)
    (hlength : code.length ≤ UInt32.size) :
    ((∃ decoded, decode code lines = .ok decoded) ↔ ∃ segments, IsCode code segments) ∧
    (∀ segments segments', IsCode code segments → IsCode code segments' → segments = segments') ∧
    (∀ decoded segments, decode code lines = .ok decoded → IsCode code segments →
      decoded.map Decoded.offset ++ [code.length] = boundaries segments ∧
      (boundaries segments).Pairwise (· < ·) ∧
      decoded.map (fun entry => entry.op.canonical) = segments.map Prod.snd) ∧
    ∀ fault, decode code lines = .error fault → ∃ segments rest,
      Cutting (Stands code.length) 0 segments ∧ code = joined segments ++ rest ∧ rest ≠ [] ∧
      blamed fault = some (joined segments).length ∧
      (∀ s canonical, Stands code.length (joined segments).length s canonical → ¬ s <+: rest) ∧
      ∀ segments' rest', Cutting (Stands code.length) 0 segments' →
        code = joined segments' ++ rest' →
        segments' <+: segments := by
  refine ⟨⟨?_, ?_⟩, ?_, ?_, ?_⟩
  · rintro ⟨decoded, hdecode⟩
    exact exists_isCode_of_decode hlength hdecode
  · rintro ⟨segments, hcode⟩
    obtain ⟨decoded, hdecode, -⟩ := decode_of_isCode hlength hcode lines
    exact ⟨decoded, hdecode⟩
  · intro segments segments' h h'
    exact h.1.eq_of_joined_eq (cuts_readCanonical hlength) h'.1 (h.2.trans h'.2.symm)
  · intro decoded segments hdecode hcode
    obtain ⟨hplaced, hops⟩ := canonical_of_decode hlength hdecode hcode
    have hoffsets : decoded.map Decoded.offset ++ [code.length] = boundaries segments := by
      rw [boundaries_eq, ← hplaced, hcode.2, List.map_map]
      rfl
    refine ⟨hoffsets, ?_, hops⟩
    rw [← hoffsets]
    exact pairwise_offsets hlength hdecode
  · intro fault hfault
    rcases decode_cases hlength lines with
      ⟨segments, hcode⟩ | ⟨segments, rest, fault', hsegments, hcode, hne, hread, herror⟩
    · obtain ⟨decoded, hdecode, -⟩ := decode_of_isCode hlength hcode lines
      rw [hdecode] at hfault
      simp at hfault
    · obtain rfl : fault' = fault := Except.error.inj (herror.symm.trans hfault)
      have hstuck := (cuts_readCanonical hlength).stuck_of_error hread
      refine ⟨segments, rest, hsegments, hcode, hne, blamed_of_readCanonical hread, hstuck, ?_⟩
      intro segments' rest' hsegments' hcode'
      refine hsegments'.prefix_of_stuck (cuts_readCanonical hlength) rest rest' hsegments
        (hcode.symm.trans hcode') ?_
      rw [Nat.zero_add]
      exact hstuck

/-- A local variable that is part of the opcode and a wide one, a table switch after two bytes of
padding, a wide jump back and a return. -/
def spellingSample : Bytes := [
  0x1a, 0xc4, 0x36, 0x01, 0x02, 0xaa, 0, 0, 0, 0, 0, 28, 0xff, 0xff, 0xff, 0xff, 0, 0,
  0, 0, 0, 0, 0, 23, 0xff, 0xff, 0xff, 0xfb, 0xc8, 0xff, 0xff, 0xff, 0xe4, 0xb1]

def spellingSampleOps : List Decoded := [
  ⟨0, 0, .localVar (.load .int) 0⟩, ⟨1, 0, .localVar (.store .int) 258⟩,
  ⟨5, 0, .tableSwitch 33 (-1) [28, 0]⟩, ⟨28, 0, .branch .goto 0⟩, ⟨33, 0, .plain .returnVoid⟩]

/-- The sample is decoded. In its first 30 bytes the switch leads out of the code and is blamed. -/
theorem decode_spellingSample :
    (decode spellingSample [] = .ok spellingSampleOps ∧ ∃ segments, IsCode spellingSample segments ∧
      boundaries segments = [0, 1, 5, 28, 33, 34] ∧
      segments.map Prod.snd = [(0x15, .localVar 0), (0x36, .localVar 258),
        (0xaa, .tableSwitch 33 (-1) [28, 0]), (0xa7, .branch 0), (0xb1, .none)]) ∧
    decode (spellingSample.take 30) [] = .error (.branchOutside 5 33) ∧
    ∃ segments rest, Cutting (Stands 30) 0 segments ∧ spellingSample.take 30 =
      joined segments ++ rest ∧
      (joined segments).length = 5 := by
  have hdecode : decode spellingSample [] = .ok spellingSampleOps := by decide +kernel
  have hrefused : decode (spellingSample.take 30) [] = .error (.branchOutside 5 33) := by
    decide +kernel
  refine ⟨⟨hdecode, ?_⟩, hrefused, ?_⟩
  · obtain ⟨hiff, -, hdecoded, -⟩ := decode_exact spellingSample [] (by decide)
    obtain ⟨segments, hcode⟩ := hiff.mp ⟨_, hdecode⟩
    obtain ⟨hoffsets, -, hcanonical⟩ := hdecoded _ segments hdecode hcode
    exact ⟨segments, hcode, hoffsets.symm.trans (by decide +kernel),
      hcanonical.symm.trans (by decide +kernel)⟩
  · obtain ⟨-, -, -, herror⟩ := decode_exact (spellingSample.take 30) [] (by decide)
    obtain ⟨segments, rest, hsegments, hcode, -, hblamed, -⟩ := herror _ hrefused
    exact ⟨segments, rest, hsegments, hcode, (Option.some.inj hblamed).symm⟩

/-! ### Code beyond 32-bit offsets -/

/-- So many bytes zero, each of which does nothing, a jump to itself, and what follows. -/
def farJump (count : Nat) (rest : Bytes) : Bytes :=
  List.replicate count 0x00 ++ 0xa7 :: 0x00 :: 0x00 :: rest

theorem readChecked_nop (length offset : Nat) (rest : Bytes) :
    readChecked length offset (0x00 :: rest) = .ok ((.plain .nop, 1), rest) := by
  have hform : Form.ofOpcode? 0x00 = some (.plain .nop) := by decide +kernel
  have hread : readOp offset (0x00 :: rest) = .ok ((.plain .nop, 1), rest) := by
    rw [readOp, Reader.bind_of_ok (show Reader.byte (0x00 :: rest) = .ok (0x00, rest) from rfl),
      hform]
    rfl
  rw [readChecked, Reader.bind_apply, Reader.mapError, hread]
  rfl

theorem readChecked_far {offset : Nat} (h : UInt32.size ≤ offset) (length : Nat) (rest : Bytes) :
    readChecked length offset (0xa7 :: 0x00 :: 0x00 :: rest) =
      .error (.branchOutside offset offset) := by
  have hform : Form.ofOpcode? 0xa7 = some (.branch .goto) := by decide +kernel
  have hzero : ((0 : Int16).toInt : Int) = 0 := by decide
  have hlanding : landing offset (0 : Int16).toInt = .error (.branchOutside offset offset) := by
    rw [landing_of_not_lands, hzero, Int.add_zero]
    rintro ⟨-, hword⟩
    rw [destination, hzero, Int.add_zero, Int.toNat_natCast] at hword
    exact absurd hword (Nat.not_lt.mpr h)
  have hread : readOp offset (0xa7 :: 0x00 :: 0x00 :: rest) =
      .error (.branchOutside offset offset) := by
    rw [readOp, Reader.bind_of_ok (show Reader.byte (0xa7 :: 0x00 :: 0x00 :: rest) =
      .ok (0xa7, 0x00 :: 0x00 :: rest) from rfl), hform]
    refine (Reader.bind_of_ok ((consumes_readInt16 0).whole rest)).trans (Reader.bind_of_error ?_)
    rw [hlanding]
    rfl
  rw [readChecked, Reader.bind_apply, Reader.mapError, hread]
  rfl

/-- A jump to itself is refused where offsets are no 32-bit numbers any more. -/
theorem decode_farJump {count : Nat} (h : UInt32.size ≤ count) (rest : Bytes)
    (lines : List LineNumber) :
    decode (farJump count rest) lines = .error (.branchOutside count count) := by
  have hlength : (farJump count rest).length = count + (rest.length + 2 + 1) := by
    rw [farJump, List.length_append, List.length_replicate, List.length_cons,
      List.length_cons, List.length_cons]
  have hcut : Reader.cut (readChecked (farJump count rest).length) (farJump count rest) =
      .error (.branchOutside count count) := by
    obtain ⟨done, hcut⟩ :=
      Reader.exists_cutOnto_replicate (readChecked_nop (farJump count rest).length) count
        (rest.length + 2 + 1) 0 [] (0xa7 :: 0x00 :: 0x00 :: rest)
    rw [← farJump, ← hlength, Nat.zero_add] at hcut
    rw [Reader.cut, hcut, hlength, Reader.cutOnto, ← hlength, readChecked_far h]
  rw [decode, hcut]
  rfl

/-- It is an instruction all the same, and its target lies in the code. -/
theorem stands_farJump {length offset : Nat} (h : offset < length) :
    Stands length offset [0xa7, 0x00, 0x00] (0xa7, .branch offset) := by
  have hlands : Lands offset (0 : Int16).toInt := Int.natCast_nonneg offset
  refine ⟨⟨0xa7, .branch, [0x00, 0x00], rfl, by decide, ?_⟩, fun target htarget => ?_⟩
  · exact .branch hlands
  · rwa [List.mem_singleton.mp htarget]

theorem isCode_farJump (count : Nat) : IsCode (farJump count [])
    (List.replicate count ([0x00], 0x00, .none) ++
      [([0xa7, 0x00, 0x00], 0xa7, .branch count)]) := by
  have hnop : ∀ offset, Stands (farJump count []).length offset [0x00] (0x00, .none) := by
    intro offset
    exact ⟨⟨0x00, .simple, [], rfl, by decide, .simple⟩,
      fun target htarget => absurd htarget List.not_mem_nil⟩
  have hlast : Stands (farJump count []).length (0 + count) [0xa7, 0x00, 0x00]
      (0xa7, .branch count) := by
    rw [Nat.zero_add]
    refine stands_farJump ?_
    rw [farJump, List.length_append, List.length_replicate]
    exact Nat.lt_add_of_pos_right (Nat.succ_pos _)
  exact ⟨.replicate hnop (.cons hlast (.nil _)), joined_replicate_append _ _ _ _⟩

/-- **Jumps beyond 32-bit offsets are refused.** After 2 ^ 32 bytes zero, a jump to itself ends the
code or stands before an unknown opcode. In both cases it is blamed, though it is an instruction
whose target lies in the code. -/
theorem farJump_refused :
    (∃ segments, IsCode (farJump UInt32.size []) segments) ∧
    decode (farJump UInt32.size []) [] = .error (.branchOutside UInt32.size UInt32.size) ∧
    Stands (farJump UInt32.size [0xcb]).length UInt32.size [0xa7, 0x00, 0x00]
      (0xa7, .branch UInt32.size) ∧
    decode (farJump UInt32.size [0xcb]) [] = .error (.branchOutside UInt32.size UInt32.size) := by
  refine ⟨⟨_, isCode_farJump _⟩, decode_farJump (Nat.le_refl _) _ _, stands_farJump ?_,
    decode_farJump (Nat.le_refl _) _ _⟩
  rw [farJump, List.length_append, List.length_replicate]
  exact Nat.lt_add_of_pos_right (Nat.succ_pos _)

end ClassImage.Bytecode
