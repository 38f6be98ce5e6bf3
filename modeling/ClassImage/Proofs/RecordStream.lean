import ClassImage.Proofs.Cutting
import ClassImage.Proofs.Record

/-!
# Code and sequences of records

`Follows` says which records can follow each other: every record has the format of its opcode, and a
switch header asks for its parameters. What is still asked for after some records is an `Awaited`; a
sequence is complete when an instruction is awaited again.

Disassembling and encoding are inverse to each other between code and complete sequences. Code that
is no complete sequence is refused where its longest beginning of records ends: the records before
that offset are complete, and none that is awaited there can be read (`StuckAt`).
-/

namespace ClassImage.Image

/-! ### Records that follow each other -/

/-- What may come next in a sequence of records: the first record of an instruction, or the
parameter of an index in a switch, with so many more behind it. -/
inductive Awaited where
  | instruction
  | parameter (op : Opcode) (index more : Nat)
deriving DecidableEq, Repr

namespace Awaited

/-- What is awaited while so many parameters of a switch are missing, the first of them of the
index. -/
def parameters (op : Opcode) (index : Nat) : Nat → Awaited
  | 0 => instruction
  | more + 1 => parameter op index more

/-- What is awaited behind a record. -/
def after : Awaited → Record → Awaited
  | instruction, .switchHeader op _ count => parameters op 0 count.toNat
  | instruction, _ => instruction
  | parameter op index more, _ => parameters op (index + 1) more

/-- Whether a record may come next. -/
def admits : Awaited → Record → Bool
  | instruction, .bare op => op.format == .bare
  | instruction, .regDisp op _ _ => op.format == .regDisp
  | instruction, .shortImmReg op imm reg =>
    op.format == .shortImmReg && decide (Record.shortMin ≤ imm.toInt) &&
      decide (imm.toInt ≤ Record.shortMax) && decide (reg ≤ Record.shortRegMax)
  | instruction, .two16 op _ _ => op.format == .two16
  | instruction, .switchHeader op _ _ => op.format == .switch
  | parameter op index _, .values .. => !op.isTargetParameter index
  | parameter op index _, .target _ => op.isTargetParameter index
  | _, _ => false

theorem admits_parameter_iff {op : Opcode} {index more : Nat} {record : Record} :
    (parameter op index more).admits record = true ↔
      record.FitsParameter (op.isTargetParameter index) := by
  cases hkind : op.isTargetParameter index <;> cases record <;>
    simp [admits, Record.FitsParameter, hkind]

end Awaited

/-- The records come one after the other where the first is awaited, and leave the second
awaited. -/
inductive Follows : Awaited → List Record → Awaited → Prop where
  | nil (awaited : Awaited) : Follows awaited [] awaited
  | cons {awaited last : Awaited} {record : Record} {records : List Record}
    (hadmits : awaited.admits record = true) (hrest : Follows (awaited.after record) records last) :
    Follows awaited (record :: records) last

/-- A sequence of whole instructions. -/
abbrev Complete (records : List Record) : Prop := Follows .instruction records .instruction

theorem Follows.append {a b c : Awaited} {records records' : List Record} (h : Follows a records b)
    (h' : Follows b records' c) : Follows a (records ++ records') c := by
  induction h with
  | nil => exact h'
  | cons hadmits _ ih => exact .cons hadmits (ih h')

/-! ### Sequences as instructions -/

theorem follows_parameters {op : Opcode} : ∀ {parameters : List Record} {index : Nat},
    (∀ (i : Nat) (record : Record), parameters[i]? = some record →
      record.FitsParameter (op.isTargetParameter (index + i))) →
    Follows (.parameters op index parameters.length) parameters .instruction := by
  intro parameters
  induction parameters with
  | nil => intro index _; exact .nil _
  | cons record parameters ih =>
    intro index h
    refine .cons (Awaited.admits_parameter_iff.mpr (h 0 record rfl)) (ih fun i r hr => ?_)
    have := h (i + 1) r hr
    rwa [Nat.add_right_comm index 1 i]

theorem IsInstruction.complete {group : List Record} (h : IsInstruction group) :
    Complete group := by
  cases h with
  | bare hop | regDisp hop | two16 hop => exact .cons (by simp [Awaited.admits, hop]) (.nil _)
  | shortImmReg hop hmin hmax hreg =>
    exact .cons (by simp [Awaited.admits, hop, hmin, hmax, hreg]) (.nil _)
  | switch hop key hcount hkinds =>
    refine .cons (by simp [Awaited.admits, hop]) ?_
    rw [Awaited.after, hcount]
    exact follows_parameters (by simpa using hkinds)

/-- Whether parameters can belong to a record. -/
def Record.isHeader : Record → Bool
  | switchHeader .. => true
  | _ => false

/-- The first record of an instruction is a switch header or the whole instruction. -/
theorem isInstruction_or_switch {record : Record} (h : Awaited.instruction.admits record = true) :
    (record.isHeader = false ∧ IsInstruction [record]) ∨
      ∃ op key count, record = .switchHeader op key count ∧ op.format = .switch := by
  cases record with
  | bare op => exact .inl ⟨rfl, .bare (by simpa [Awaited.admits] using h)⟩
  | regDisp op reg disp => exact .inl ⟨rfl, .regDisp (by simpa [Awaited.admits] using h) reg disp⟩
  | shortImmReg op imm reg =>
    simp only [Awaited.admits, Bool.and_eq_true, beq_iff_eq, decide_eq_true_eq] at h
    obtain ⟨⟨⟨hop, hmin⟩, hmax⟩, hreg⟩ := h
    exact .inl ⟨rfl, .shortImmReg hop hmin hmax hreg⟩
  | two16 op hi lo => exact .inl ⟨rfl, .two16 (by simpa [Awaited.admits] using h) hi lo⟩
  | switchHeader op key count => exact .inr ⟨op, key, count, rfl, by simpa [Awaited.admits] using h⟩
  | values hi lo => simp [Awaited.admits] at h
  | target disp => simp [Awaited.admits] at h

theorem Awaited.after_of_not_isHeader {record : Record} (h : record.isHeader = false) :
    Awaited.instruction.after record = .instruction := by
  cases record <;> first | rfl | simp [Record.isHeader] at h

/-- Records that follow each other to the end of an instruction are the parameters that were
missing, and then instructions. -/
theorem Follows.exists_groups {records : List Record} : ∀ (op : Opcode) (index count : Nat),
    Follows (.parameters op index count) records .instruction →
    ∃ parameters groups, records = parameters ++ List.flatten groups ∧ parameters.length = count ∧
      (∀ (i : Nat) (record : Record), parameters[i]? = some record →
        record.FitsParameter (op.isTargetParameter (index + i))) ∧
      ∀ group ∈ groups, IsInstruction group := by
  induction records with
  | nil =>
    intro op index count h
    cases count with
    | zero => exact ⟨[], [], rfl, rfl, by simp, by simp⟩
    | succ count => cases h
  | cons record records ih =>
    intro op index count h
    cases count with
    | zero =>
      cases h with
      | cons hadmits hrest =>
        refine ⟨[], ?_⟩
        rcases isInstruction_or_switch hadmits with ⟨hheader, hone⟩ | ⟨op', key, count, rfl, hop⟩
        · have hnext : Follows .instruction records .instruction := by
            simpa only [Awaited.parameters, Awaited.after_of_not_isHeader hheader] using hrest
          obtain ⟨parameters, groups, rfl, hlength, -, hgroups⟩ := ih op index 0 hnext
          obtain rfl := List.length_eq_zero_iff.mp hlength
          exact ⟨[record] :: groups, rfl, rfl, by simp, List.forall_mem_cons.mpr ⟨hone, hgroups⟩⟩
        · obtain ⟨parameters, groups, rfl, hlength, hkinds, hgroups⟩ := ih op' 0 count.toNat hrest
          refine ⟨(.switchHeader op' key count :: parameters) :: groups, rfl, rfl, by simp, ?_⟩
          refine List.forall_mem_cons.mpr ⟨.switch hop key hlength.symm ?_, hgroups⟩
          simpa using hkinds
    | succ count =>
      cases h with
      | cons hadmits hrest =>
        obtain ⟨parameters, groups, rfl, hlength, hkinds, hgroups⟩ := ih op (index + 1) count hrest
        refine ⟨record :: parameters, groups, rfl, by rw [List.length_cons, hlength], ?_, hgroups⟩
        intro i r hr
        cases i with
        | zero =>
          obtain rfl : record = r := by simpa using hr
          exact Awaited.admits_parameter_iff.mp hadmits
        | succ i =>
          have := hkinds i r (by simpa using hr)
          rwa [Nat.add_right_comm index 1 i] at this

theorem exists_groups_of_complete {records : List Record} (h : Complete records) :
    ∃ groups, records = List.flatten groups ∧ ∀ group ∈ groups, IsInstruction group := by
  obtain ⟨parameters, groups, rfl, hlength, -, hgroups⟩ := h.exists_groups .tableSwitch 0 0
  obtain rfl := List.length_eq_zero_iff.mp hlength
  exact ⟨groups, rfl, hgroups⟩

/-! ### Reading one record -/

theorem Opcode.byte_of_ofByte? {b : UInt8} {op : Opcode} (h : ofByte? b = some op) :
    op.byte = b := by
  simpa using List.find?_some h

namespace Record

theorem encode_ne_nil (record : Record) : record.encode ≠ [] := by
  have := record.length_pos
  rw [← length_encode] at this
  exact List.length_pos_iff.mp this

/-- A word of 24 bits is made of its short fields. -/
theorem shortWord_shortImm_shortReg {word : Nat} (h : word < 256 ^ 3) :
    shortWord (shortImm word) (shortReg word) = word ∧
      shortMin ≤ (shortImm word).toInt ∧ (shortImm word).toInt ≤ shortMax ∧
      shortReg word ≤ shortRegMax := by
  have hbits : word / 64 % 0x40000 = word / 64 := Nat.mod_eq_of_lt (by omega)
  have himm : (shortImm word).toInt =
      if word / 64 < 0x20000 then ((word / 64 : Nat) : Int) else (word / 64 : Nat) - 0x40000 := by
    rw [shortImm, hbits]
    split <;> exact Int32.toInt_ofInt_of_le (by omega) (by omega)
  have hreg : (shortReg word).toNat = word % 64 := by
    rw [shortReg, UInt8.toNat_ofNat']
    omega
  refine ⟨?_, ?_, ?_, UInt8.le_iff_toNat_le.mpr ?_⟩
  · rw [shortWord, himm, hreg]
    split <;> omega
  · rw [shortMin, himm]
    split <;> omega
  · rw [shortMax, himm]
    split <;> omega
  · rw [hreg]
    show word % 64 ≤ 63
    omega

/-- The operands that were read complete an instruction, or a switch header. -/
theorem returns_operands (op : Opcode) : Returns (readOperands op) fun record s =>
    record.encode = op.byte :: s ∧ Awaited.instruction.admits record = true ∧
      ∀ op' key count, record = .switchHeader op' key count → op' = op := by
  rw [readOperands]
  cases hop : op.format with
  | bare => exact Returns.pure ⟨rfl, by simp [Awaited.admits, hop], by simp⟩
  | regDisp =>
    refine Returns.byte.bind fun reg s hs => (Returns.word16 .little).bind fun disp s' hs' =>
      Returns.pure ?_
    refine ⟨?_, by simp [Awaited.admits, hop], by simp⟩
    rw [hs, hs', List.append_nil, encode, UInt16.toUInt16_toInt16]
    rfl
  | shortImmReg =>
    refine (Returns.nat .little 3).bind fun word s hword => Returns.pure ?_
    obtain ⟨hs, hlt⟩ := hword
    obtain ⟨hword, hmin, hmax, hreg⟩ := shortWord_shortImm_shortReg hlt
    refine ⟨?_, by simp [Awaited.admits, hop, hmin, hmax, hreg], by simp⟩
    rw [hs, List.append_nil, encode, hword]
    rfl
  | two16 =>
    refine (Returns.word16 .little).bind fun hi s hs =>
      (Returns.word16 .little).bind fun lo s' hs' =>
      Returns.pure ?_
    refine ⟨?_, by simp [Awaited.admits, hop], by simp⟩
    rw [hs, hs', List.append_nil]
    rfl
  | switch =>
    refine Returns.byte.bind fun key s hs => (Returns.word16 .little).bind fun count s' hs' =>
      Returns.pure ?_
    refine ⟨?_, by simp [Awaited.admits, hop], fun op' key' count' heq => ?_⟩
    · rw [hs, hs', List.append_nil]
      rfl
    · exact (switchHeader.inj heq).1.symm

theorem returns_parameter (isTarget : Bool) : Returns (readParameter isTarget) fun record s =>
    s = record.encode ∧ record.FitsParameter isTarget := by
  cases isTarget with
  | true =>
    refine (Returns.word32 .little).bind fun disp s hs => Returns.pure ⟨?_, trivial⟩
    rw [hs, List.append_nil, encode, UInt32.toUInt32_toInt32]
    rfl
  | false =>
    refine (Returns.word16 .little).bind fun hi s hs =>
      (Returns.word16 .little).bind fun lo s' hs' =>
      Returns.pure ⟨?_, trivial⟩
    rw [hs, hs', List.append_nil]
    rfl

/-- The first record of an instruction is read behind its opcode. -/
theorem exists_reads_operands {record : Record} (h : Awaited.instruction.admits record = true) :
    ∃ op s, record.encode = op.byte :: s ∧ Reads OperandsEnd (readOperands op) s record := by
  rcases isInstruction_or_switch h with ⟨-, hone⟩ | ⟨op, key, count, rfl, hop⟩
  · cases hone with
    | @bare op hop =>
      refine ⟨op, [], rfl, ?_⟩
      rw [readOperands, hop]
      exact Reads.pure
    | @regDisp op hop reg disp => exact ⟨op, _, rfl, reads_operands_regDisp hop reg disp⟩
    | @shortImmReg op hop imm reg hmin hmax hreg =>
      exact ⟨op, _, rfl, reads_operands_shortImmReg hop hmin hmax hreg⟩
    | @two16 op hop hi lo => exact ⟨op, _, rfl, reads_operands_two16 hop hi lo⟩
    | @switch op hop key count parameters hcount hkinds =>
      exact ⟨op, _, rfl, reads_operands_switch hop key count⟩
  · exact ⟨op, _, rfl, reads_operands_switch hop key count⟩

end Record

/-- **Of two awaited records none begins with the other.** -/
theorem Awaited.deterministic {awaited : Awaited} {record record' : Record} {rest rest' : Bytes}
    (h : awaited.admits record = true) (h' : awaited.admits record' = true)
    (heq : record.encode ++ rest = record'.encode ++ rest') : record = record' ∧ rest = rest' := by
  cases awaited with
  | instruction =>
    obtain ⟨op, s, hs, hreads⟩ := Record.exists_reads_operands h
    obtain ⟨op', s', hs', hreads'⟩ := Record.exists_reads_operands h'
    rw [hs, hs', List.cons_append, List.cons_append, List.cons.injEq] at heq
    obtain ⟨hbyte, heq⟩ := heq
    obtain rfl : op = op' := by
      have := op.ofByte?_byte
      rw [hbyte, op'.ofByte?_byte] at this
      exact (Option.some.inj this).symm
    have hread := hreads.whole rest
    rw [heq, hreads'.whole rest'] at hread
    simpa [eq_comm] using hread
  | parameter op index more =>
    have hread := (reads_parameter (admits_parameter_iff.mp h)).whole rest
    rw [heq, (reads_parameter (admits_parameter_iff.mp h')).whole rest'] at hread
    simpa [eq_comm] using hread

/-! ### Where reading stops -/

/-- The offset at which code could not be read any further. -/
def DisassemblyFault.offset : DisassemblyFault → Nat
  | unknownOpcode _ offset | truncated offset => offset

/-- None of the awaited records is in front of the bytes. -/
def Awaited.Missing (awaited : Awaited) (rest : Bytes) : Prop :=
  ∀ record, awaited.admits record = true → ¬ record.encode <+: rest

/-- Bytes at an offset begin with records that follow each other, and at the offset of the fault
none of the records that are then awaited can be read. -/
def StuckAt (awaited : Awaited) (offset : Nat) (bs : Bytes) (fault : DisassemblyFault) : Prop :=
  ∃ before last rest, Follows awaited before last ∧ bs = encodeAll before ++ rest ∧
    fault.offset = offset + totalSize Record.length before ∧ last.Missing rest

theorem encodeAll_append (records records' : List Record) :
    encodeAll (records ++ records') = encodeAll records ++ encodeAll records' := List.flatMap_append

theorem StuckAt.here {awaited : Awaited} {offset : Nat} {bs : Bytes} {fault : DisassemblyFault}
    (hoffset : fault.offset = offset) (h : awaited.Missing bs) : StuckAt awaited offset bs fault :=
  ⟨[], awaited, bs, .nil awaited, rfl, hoffset, h⟩

/-- What stops behind some records stops after them. -/
theorem StuckAt.behind {awaited last : Awaited} {records : List Record} {offset : Nat} {bs : Bytes}
    {fault : DisassemblyFault} (hfollows : Follows awaited records last)
    (h : StuckAt last (offset + totalSize Record.length records) bs fault) :
    StuckAt awaited offset (encodeAll records ++ bs) fault := by
  obtain ⟨before, last', rest, hbefore, rfl, hoffset, hmissing⟩ := h
  refine ⟨records ++ before, last', rest, hfollows.append hbefore, ?_, ?_, hmissing⟩
  · rw [encodeAll_append, List.append_assoc]
  · rw [hoffset, totalSize_append, Nat.add_assoc]

/-- Whatever records the bytes begin with, they are among those before the place where reading
stops. -/
theorem Follows.prefix_of_missing {awaited last' : Awaited} {records' : List Record}
    (h' : Follows awaited records' last') :
    ∀ {records : List Record} {last : Awaited} {rest rest' : Bytes}, Follows awaited records last →
      last.Missing rest →
    encodeAll records ++ rest = encodeAll records' ++ rest' → records' <+: records := by
  induction h' with
  | nil => intros; exact List.nil_prefix
  | @cons awaited last' record' records' hadmits' _ ih =>
    intro records last rest rest' h hmissing heq
    cases h with
    | nil =>
      refine absurd ?_ (hmissing record' hadmits')
      exact ⟨encodeAll records' ++ rest', by simpa [encodeAll] using heq.symm⟩
    | @cons _ _ record records hadmits hrest =>
      simp only [encodeAll, List.flatMap_cons, List.append_assoc] at heq
      obtain ⟨rfl, hafter⟩ := Awaited.deterministic hadmits hadmits' heq
      exact List.cons_prefix_cons.mpr ⟨rfl, ih hrest hmissing hafter⟩

theorem returns_parameters (op : Opcode) (n index offset : Nat) (done : List Record) :
    Returns (readParametersOnto op n index offset done) fun all s => ∃ parameters,
      all = done.reverse ++ parameters ∧ s = encodeAll parameters ∧ parameters.length = n ∧
        ∀ (i : Nat) (record : Record), parameters[i]? = some record →
          record.FitsParameter (op.isTargetParameter (index + i)) := by
  induction n generalizing index offset done with
  | zero => exact Returns.pure ⟨[], by simp, rfl, rfl, by simp⟩
  | succ n ih =>
    intro bs all rest hread
    rw [readParametersOnto] at hread
    cases hfirst : Record.readParameter (op.isTargetParameter index) bs with
    | error e => simp [hfirst] at hread
    | ok result =>
      obtain ⟨record, middle⟩ := result
      simp only [hfirst] at hread
      obtain ⟨s, rfl, rfl, hfits⟩ := Record.returns_parameter _ bs record middle hfirst
      obtain ⟨s', rfl, parameters, rfl, rfl, rfl, hkinds⟩ :=
        ih (index + 1) (offset + Record.parameterLength) (record :: done) middle all rest hread
      refine ⟨encodeAll (record :: parameters), by simp [encodeAll], record :: parameters,
        by simp, rfl, rfl, ?_⟩
      intro i r hr
      cases i with
      | zero =>
        obtain rfl : record = r := by simpa using hr
        exact hfits
      | succ i =>
        have := hkinds i r (by simpa using hr)
        rwa [Nat.add_right_comm index 1 i] at this

theorem stuckAt_of_readParametersOnto (op : Opcode) {n index offset : Nat} {done : List Record}
    {bs : Bytes} {fault : DisassemblyFault}
    (h : readParametersOnto op n index offset done bs = .error fault) :
    StuckAt (.parameters op index n) offset bs fault := by
  induction n generalizing index offset done bs with
  | zero => simp [readParametersOnto] at h
  | succ n ih =>
    rw [readParametersOnto] at h
    cases hfirst : Record.readParameter (op.isTargetParameter index) bs with
    | error e =>
      simp only [hfirst, Except.error.injEq] at h
      subst h
      refine .here rfl fun record hadmits hprefix => ?_
      obtain ⟨after, rfl⟩ := hprefix
      rw [(reads_parameter (Awaited.admits_parameter_iff.mp hadmits)).whole after] at hfirst
      simp at hfirst
    | ok result =>
      obtain ⟨record, rest⟩ := result
      simp only [hfirst] at h
      obtain ⟨s, rfl, rfl, hfits⟩ := Record.returns_parameter _ bs record rest hfirst
      have hrest := ih h
      rw [← hfits.length] at hrest
      have hone : Follows (.parameters op index (n + 1)) [record] (.parameters op (index + 1) n) :=
        .cons (Awaited.admits_parameter_iff.mpr hfits) (.nil _)
      have hstuck : StuckAt (.parameters op index (n + 1)) offset
          (encodeAll [record] ++ rest) fault :=
        .behind hone (by simpa using hrest)
      simpa [encodeAll] using hstuck

/-! ### Reading one instruction -/

theorem readInstruction_of_unknown {b : UInt8} (h : Opcode.ofByte? b = none) (offset : Nat)
    (bs : Bytes) :
    readInstruction offset (b :: bs) = .error (.unknownOpcode b offset) := by
  have hbyte :
      (Reader.byte.mapError fun (_ : Ended) => DisassemblyFault.truncated offset) (b :: bs) =
      .ok (b, bs) := rfl
  rw [readInstruction, Reader.bind_of_ok hbyte, h]
  rfl

theorem readInstruction_of_opcode {b : UInt8} {op : Opcode} (h : Opcode.ofByte? b = some op)
    (offset : Nat) (bs : Bytes) : readInstruction offset (b :: bs) =
      (((Record.readOperands op).mapError fun _ => .truncated offset) >>=
        readTail offset op) bs := by
  have hbyte :
      (Reader.byte.mapError fun (_ : Ended) => DisassemblyFault.truncated offset) (b :: bs) =
      .ok (b, bs) := rfl
  rw [readInstruction, Reader.bind_of_ok hbyte, h]
  rfl

theorem readTail_of_not_isHeader {record : Record} (h : record.isHeader = false) (offset : Nat)
    (op : Opcode) :
    readTail offset op record = pure ([record], record.length) := by
  cases record <;> first | rfl | simp [Record.isHeader] at h

/-- What was read is an instruction. -/
theorem returns_instruction (offset : Nat) : Returns (readInstruction offset) fun result s =>
    IsInstruction result.1 ∧ s = encodeAll result.1 := by
  intro bs result rest hread
  cases bs with
  | nil => simp [readInstruction, Reader.bind_apply, Reader.mapError, Reader.byte] at hread
  | cons b bs =>
    cases hop : Opcode.ofByte? b with
    | none => simp [readInstruction_of_unknown hop] at hread
    | some op =>
      rw [readInstruction_of_opcode hop] at hread
      obtain ⟨first, middle, hfirst, htail⟩ := Reader.exists_of_bind_eq_ok hread
      obtain ⟨s, rfl, hencode, hadmits, hsame⟩ :=
        (Record.returns_operands op).mapError bs first middle hfirst
      rw [Opcode.byte_of_ofByte? hop] at hencode
      rcases isInstruction_or_switch hadmits with ⟨hheader, hone⟩ | ⟨op', key, count, rfl, hswitch⟩
      · rw [readTail_of_not_isHeader hheader] at htail
        obtain ⟨rfl, rfl⟩ : ([first], first.length) = result ∧ middle = rest := by
          simpa [Reader.pure_apply] using htail
        exact ⟨b :: s, rfl, hone, by simp [encodeAll, hencode]⟩
      · obtain rfl := hsame op' key count rfl
        obtain ⟨parameters, last, hparameters, hresult⟩ := Reader.exists_of_bind_eq_ok htail
        obtain ⟨s', rfl, _, rfl, rfl, hlength, hkinds⟩ :=
          returns_parameters _ _ _ _ _ middle parameters last hparameters
        obtain ⟨rfl, rfl⟩ : (Record.switchHeader op' key count :: parameters,
            (Record.switchHeader op' key count).length + count.toNat * Record.parameterLength) =
              result ∧
            last = rest := by
          simpa [Reader.pure_apply] using hresult
        refine ⟨b :: (s ++ encodeAll parameters), by simp, ?_, by simp [encodeAll, hencode]⟩
        exact .switch hswitch key hlength.symm (by simpa using hkinds)

theorem cuts_readInstruction :
    Cuts readInstruction fun _ s group => IsInstruction group ∧ s = encodeAll group := by
  have hcomplete : ∀ {offset s group}, IsInstruction group ∧ s = encodeAll group → ∀ rest,
      readInstruction offset (s ++ rest) = .ok ((group, s.length), rest) := by
    rintro offset s group ⟨hgroup, rfl⟩ rest
    rw [length_encodeAll]
    exact (reads_instruction hgroup offset).whole rest
  refine ⟨?_, hcomplete, ?_⟩
  · rintro offset s group ⟨hgroup, rfl⟩
    obtain ⟨first, parameters, rfl, -⟩ := hgroup.exists_cons
    simp [encodeAll, first.encode_ne_nil]
  · intro offset bs group size rest hread
    obtain ⟨s, rfl, hgroup⟩ := returns_instruction offset bs (group, size) rest hread
    rw [hcomplete hgroup rest] at hread
    exact ⟨s, rfl, by simpa [eq_comm] using hread, hgroup⟩

/-- The first record of an instruction is not in front of bytes that do not begin with an opcode, or
in which the operands are cut off. -/
theorem missing_instruction {bs : Bytes} (h : ∀ op rest, bs = op.byte :: rest →
    ∃ e, Record.readOperands op rest = .error e) : Awaited.instruction.Missing bs := by
  intro record hadmits hprefix
  obtain ⟨op, s, hencode, hreads⟩ := Record.exists_reads_operands hadmits
  obtain ⟨after, rfl⟩ := hprefix
  rw [hencode] at h
  obtain ⟨e, he⟩ := h op (s ++ after) rfl
  rw [hreads.whole after] at he
  simp at he

/-- **An instruction that cannot be read stops at the first record that is not there.** -/
theorem stuckAt_of_readInstruction {offset : Nat} {bs : Bytes} {fault : DisassemblyFault}
    (h : readInstruction offset bs = .error fault) : StuckAt .instruction offset bs fault := by
  cases bs with
  | nil =>
    obtain rfl : DisassemblyFault.truncated offset = fault := Except.error.inj h
    exact .here rfl (missing_instruction fun op rest hbs => by simp at hbs)
  | cons b bs =>
    cases hop : Opcode.ofByte? b with
    | none =>
      rw [readInstruction_of_unknown hop, Except.error.injEq] at h
      subst h
      refine .here rfl (missing_instruction fun op rest hbs => ?_)
      rw [(List.cons.inj hbs).1, op.ofByte?_byte] at hop
      simp at hop
    | some op =>
      rw [readInstruction_of_opcode hop, Reader.bind_apply] at h
      cases hfirst : Record.readOperands op bs with
      | error e =>
        simp only [Reader.mapError, hfirst, Except.error.injEq] at h
        subst h
        refine .here rfl (missing_instruction fun op' rest hbs => ⟨e, ?_⟩)
        obtain ⟨rfl, rfl⟩ := List.cons.inj hbs
        rw [op'.ofByte?_byte, Option.some.injEq] at hop
        rwa [hop]
      | ok result =>
        obtain ⟨first, middle⟩ := result
        simp only [Reader.mapError, hfirst] at h
        obtain ⟨s, rfl, hencode, hadmits, hsame⟩ :=
          Record.returns_operands op bs first middle hfirst
        rw [Opcode.byte_of_ofByte? hop] at hencode
        rcases isInstruction_or_switch hadmits with ⟨hheader, -⟩ | ⟨op', key, count, rfl, hswitch⟩
        · simp [readTail_of_not_isHeader hheader, Reader.pure_apply] at h
        · obtain rfl := hsame op' key count rfl
          rw [readTail, Reader.bind_apply] at h
          cases hparameters : readParametersOnto op' count.toNat 0
              (offset + (Record.switchHeader op' key count).length) [] middle with
          | ok result => simp [hparameters, Reader.pure_apply] at h
          | error e =>
            simp only [hparameters, Except.error.injEq] at h
            subst h
            have hone : Follows .instruction [.switchHeader op' key count]
                (.parameters op' 0 count.toNat) :=
              .cons hadmits (.nil _)
            have hstuck : StuckAt .instruction offset
                (encodeAll [.switchHeader op' key count] ++ middle) e :=
              .behind hone (by simpa using stuckAt_of_readParametersOnto op' hparameters)
            simpa [encodeAll, hencode] using hstuck

/-! ### Code -/

theorem Cutting.instructions {offset : Nat} {pieces : List (Bytes × List Record)}
    (h : Cutting (fun _ s group => IsInstruction group ∧ s = encodeAll group) offset pieces) :
    Complete (pieces.map Prod.snd).flatten ∧ joined pieces =
      encodeAll (pieces.map Prod.snd).flatten := by
  induction h with
  | nil => exact ⟨.nil _, rfl⟩
  | cons hfirst _ ih =>
    obtain ⟨hgroup, rfl⟩ := hfirst
    rw [List.map_cons, List.flatten_cons, joined_cons, encodeAll_append, ih.2]
    exact ⟨hgroup.complete.append ih.1, rfl⟩

/-- Code is disassembled into the complete sequence that it encodes, or it is stuck at the fault. -/
theorem disassemble_cases (code : Bytes) :
    (∃ records, Complete records ∧ code = encodeAll records ∧
      disassemble code = .ok (Layout.ofList 0 records)) ∨
    ∃ fault, StuckAt .instruction 0 code fault ∧ disassemble code = .error fault := by
  rcases Reader.cut_cases cuts_readInstruction code with
    ⟨pieces, hpieces, hcode, hok⟩ | ⟨pieces, rest, fault, hpieces, hcode, -, hrest, herror⟩
  · obtain ⟨hcomplete, hjoined⟩ := Cutting.instructions hpieces
    refine .inl ⟨_, hcomplete, hcode.trans hjoined, ?_⟩
    rw [disassemble, instructions, hok, ← map_snd_placedFrom 0 pieces, ← List.flatMap_def]
    rfl
  · obtain ⟨hcomplete, hjoined⟩ := Cutting.instructions hpieces
    refine .inr ⟨fault, ?_, ?_⟩
    · rw [hcode, hjoined]
      refine .behind hcomplete ?_
      rw [Nat.zero_add, ← length_encodeAll, ← hjoined]
      exact stuckAt_of_readInstruction hrest
    · rw [disassemble, instructions, herror]
      rfl

/-- **Code and complete sequences of records are in bijection**, and all other code is refused where
the longest sequence of records in front of it ends. -/
theorem disassemble_exact :
    (∀ code layout, disassemble code = .ok layout →
      Complete layout.entries.toList ∧ encodeAll layout.entries.toList = code ∧
        layout.offsets.toList = offsetsFrom Record.length 0 layout.entries.toList ∧
        layout.stop = code.length) ∧
    (∀ records, Complete records → ∃ layout, disassemble (encodeAll records) = .ok layout ∧
      layout.entries.toList = records) ∧
    ∀ code, (∀ records, Complete records → encodeAll records ≠ code) →
      ∃ fault before awaited rest, disassemble code = .error fault ∧
        Follows .instruction before awaited ∧ code = encodeAll before ++ rest ∧
        fault.offset = (encodeAll before).length ∧
        (∀ record, awaited.admits record = true → ¬ record.encode <+: rest) ∧
        ∀ before' awaited' rest', Follows .instruction before' awaited' →
          code = encodeAll before' ++ rest' → before' <+: before := by
  refine ⟨?_, ?_, ?_⟩
  · intro code layout h
    rcases disassemble_cases code with ⟨records, hcomplete, rfl, hok⟩ | ⟨fault, -, herror⟩
    · rw [hok, Except.ok.injEq] at h
      subst h
      rw [Layout.ofList_eq, length_encodeAll, Nat.zero_add]
      exact ⟨hcomplete, rfl, rfl, rfl⟩
    · simp [herror] at h
  · intro records hcomplete
    obtain ⟨groups, rfl, hgroups⟩ := exists_groups_of_complete hcomplete
    refine ⟨Layout.ofList 0 groups.flatten, ?_, by rw [Layout.ofList_eq]⟩
    rw [← disassemble_flatMap hgroups, encodeAll, List.flatten_eq_flatMap, List.flatMap_assoc]
    rfl
  · intro code hnone
    rcases disassemble_cases code with ⟨records, hcomplete, rfl, -⟩ | ⟨fault, hstuck, herror⟩
    · exact absurd rfl (hnone records hcomplete)
    · obtain ⟨before, awaited, rest, hbefore, rfl, hoffset, hmissing⟩ := hstuck
      refine ⟨fault, before, awaited, rest, herror, hbefore, rfl, ?_, hmissing, ?_⟩
      · rw [hoffset, length_encodeAll, Nat.zero_add]
      · intro before' awaited' rest' hbefore' heq
        exact hbefore'.prefix_of_missing hbefore hmissing heq

/-- A constant, a table switch with one case, a return and a call. -/
def sampleRecords : List Record := [
  .shortImmReg .pushShort (-0x20000) 63,
  .switchHeader .tableSwitch 255 4, .values 0 1, .values 0 1, .target 21, .target (-4),
  .bare (.plain .returnVoid),
  .two16 (.invoke .static) 7 2]

theorem complete_sampleRecords : Complete sampleRecords := by
  repeat (first | exact .nil _ | refine .cons rfl ?_)

/-- The sample is found again at its offsets. Its first 22 bytes end inside the last parameter of
the switch and are refused there. -/
theorem disassemble_sampleRecords :
    (∃ layout, disassemble (encodeAll sampleRecords) = .ok layout ∧
      layout.entries.toList = sampleRecords ∧
      layout.offsets.toList = [0, 4, 8, 12, 16, 20, 24, 25] ∧ layout.stop = 30) ∧
    ∃ before awaited rest, disassemble ((encodeAll sampleRecords).take 22) =
      .error (.truncated 20) ∧
      Follows .instruction before awaited ∧ (encodeAll before).length = 20 ∧
      (encodeAll sampleRecords).take 22 = encodeAll before ++ rest ∧
      ∀ record, awaited.admits record = true → ¬ record.encode <+: rest := by
  obtain ⟨hsound, hcomplete, hrefused⟩ := disassemble_exact
  have herror : disassemble ((encodeAll sampleRecords).take 22) = .error (.truncated 20) := by rfl
  constructor
  · obtain ⟨layout, hok, hentries⟩ := hcomplete sampleRecords complete_sampleRecords
    obtain ⟨-, -, hoffsets, hstop⟩ := hsound _ layout hok
    rw [hentries] at hoffsets
    exact ⟨layout, hok, hentries, hoffsets, hstop⟩
  · have hnone : ∀ records, Complete records → encodeAll records ≠
        (encodeAll sampleRecords).take 22 := by
      intro records hrecords heq
      obtain ⟨layout, hok, -⟩ := hcomplete records hrecords
      rw [heq, herror] at hok
      simp at hok
    obtain ⟨fault, before, awaited, rest, hfault, hbefore, hcode, hoffset, hmissing, -⟩ :=
      hrefused _ hnone
    rw [herror, Except.error.injEq] at hfault
    subst hfault
    exact ⟨before, awaited, rest, herror, hbefore, hoffset.symm, hcode, hmissing⟩

end ClassImage.Image
