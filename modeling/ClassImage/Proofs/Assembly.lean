import Mathlib.Data.List.Forall2
import ClassImage.Body.Assembly
import ClassImage.Proofs.Record

/-!
# What a laid out body consists of

`Place.Makes` says which records an instruction becomes at its place, `Place.records_ok` that
nothing else comes out of laying it out. From there on a body is followed through its groups of
records, one group per instruction: they have the lengths that were reserved for them
(`Place.Makes.totalSize`), so the code disassembles into these groups at the offsets of the layout
(`IsAssembly.disassemble`), and the tables of handlers and lines speak of offsets at which
instructions start.
-/

namespace ClassImage

/-! ### Results that may fail -/

section Results

variable {ε α β : Type}

theorem forall₂_of_mapM_eq_ok {f : α → Except ε β} {as : List α} {bs : List β}
    (h : as.mapM f = .ok bs) : List.Forall₂ (fun a b => f a = .ok b) as bs := by
  induction as generalizing bs with
  | nil =>
    obtain rfl : [] = bs := by simpa [pure, Except.pure] using h
    exact List.Forall₂.nil
  | cons a as ih =>
    rw [List.mapM_cons] at h
    obtain ⟨b, hb, h⟩ := bind_eq_ok_iff.mp h
    obtain ⟨rest, hrest, h⟩ := bind_eq_ok_iff.mp h
    obtain rfl : b :: rest = bs := by simpa [pure, Except.pure] using h
    exact List.Forall₂.cons hb (ih hrest)

/-- Related lists are related at each index. -/
theorem exists_getElem?_of_forall₂ {r : α → β → Prop} {as : List α} {bs : List β}
    (h : List.Forall₂ r as bs) {i : Nat} {a : α} (ha : as[i]? = some a) :
    ∃ b, bs[i]? = some b ∧ r a b := by
  induction h generalizing i with
  | nil => exact absurd ha (by simp)
  | cons hr _ ih =>
    cases i with
    | zero =>
      obtain rfl := Option.some.inj ha
      exact ⟨_, rfl, hr⟩
    | succ i => exact ih ha

theorem exists_mem_of_forall₂ {r : α → β → Prop} {as : List α} {bs : List β}
    (h : List.Forall₂ r as bs) {b : β} (hb : b ∈ bs) : ∃ a ∈ as, r a b := by
  obtain ⟨i, hi⟩ := List.mem_iff_getElem?.mp hb
  obtain ⟨a, ha, hr⟩ := exists_getElem?_of_forall₂ h.flip hi
  exact ⟨a, List.mem_of_getElem? ha, hr⟩

theorem forall₂_of_getElem? {r : α → β → Prop} {as : List α} {bs : List β}
    (hlen : as.length = bs.length)
    (h : ∀ (i : Nat) a b, as[i]? = some a → bs[i]? = some b → r a b) : List.Forall₂ r as bs := by
  refine List.forall₂_iff_get.mpr ⟨hlen, fun i ha hb => ?_⟩
  exact h i _ _ (List.getElem?_eq_getElem ha) (List.getElem?_eq_getElem hb)

end Results

namespace Body

open Conversion (Error Settings)
open Image (Record LineEntry IsInstruction)

/-! ### Offsets of positions -/

/-- Where the instructions of a body start. -/
def starts (body : Body) : List Nat := offsetsFrom Instruction.length 0 body.instructions

/-- Where the code of a body ends. -/
def stop (body : Body) : Nat := totalSize Instruction.length body.instructions

theorem length_starts (body : Body) : body.starts.length = body.instructions.length :=
  length_offsetsFrom ..

theorem layout_eq (body : Body) : body.layout =
    ⟨body.instructions.toArray, body.starts.toArray, body.stop⟩ := by
  have h := Layout.ofList_eq 0 body.instructions
  rw [Nat.zero_add] at h
  exact h

theorem Instruction.length_pos (insn : Instruction) : 0 < insn.length := by
  have hformat : 0 < insn.opcode.format.length := by cases insn.opcode.format <;> decide
  rw [Instruction.length]
  cases insn.operands with
  | switch => exact Nat.lt_of_lt_of_le (by decide) (Nat.le_add_right _ _)
  | _ => exact hformat

theorem pairwise_starts (body : Body) : body.starts.Pairwise (· < ·) :=
  pairwise_offsetsFrom _ (fun insn _ => insn.length_pos) 0

theorem lt_stop_of_mem_starts {body : Body} {offset : Nat} (h : offset ∈ body.starts) :
    offset < body.stop := by
  have := lt_of_mem_offsetsFrom _ (fun insn _ => insn.length_pos) h
  rwa [Nat.zero_add] at this

/-- The offset of a position is where its instruction starts, or the end of the code. -/
theorem offsetOf?_eq (body : Body) (position : Nat) : offsetOf? body.layout position =
    if position = body.instructions.length then some body.stop else body.starts[position]? := by
  rw [layout_eq]
  simp [offsetOf?, Layout.size]

theorem offsetOf?_le {body : Body} {position offset : Nat}
    (h : offsetOf? body.layout position = some offset) : offset ≤ body.stop := by
  rw [offsetOf?_eq] at h
  split at h
  · exact Nat.le_of_eq (Option.some.inj h).symm
  · exact Nat.le_of_lt (lt_stop_of_mem_starts (List.mem_of_getElem? h))

theorem offsetOf?_of_lt {body : Body} {position offset : Nat}
    (hlt : position < body.instructions.length) (h : offsetOf? body.layout position = some offset) :
    body.starts[position]? = some offset := by
  rwa [offsetOf?_eq, if_neg (Nat.ne_of_lt hlt)] at h

/-- The offsets of all positions are where the instructions start, and the end of the code. -/
theorem offsetOf?_eq_append (body : Body) (position : Nat) :
    offsetOf? body.layout position = (body.starts ++ [body.stop])[position]? := by
  have hlen := body.length_starts
  rw [offsetOf?_eq]
  by_cases heq : position = body.instructions.length
  · rw [if_pos heq, List.getElem?_append_right (by omega), heq, hlen, Nat.sub_self]
    rfl
  · rw [if_neg heq]
    by_cases hlt : position < body.starts.length
    · rw [List.getElem?_append_left hlt]
    · rw [List.getElem?_eq_none (by omega), List.getElem?_eq_none (by simp; omega)]

/-- The offsets of positions increase up to the end of the code. -/
theorem pairwise_starts_stop (body : Body) : (body.starts ++ [body.stop]).Pairwise (· < ·) := by
  refine List.pairwise_append.mpr ⟨body.pairwise_starts, List.pairwise_singleton _ _, ?_⟩
  intro start hstart stop hstop
  rw [List.mem_singleton.mp hstop]
  exact lt_stop_of_mem_starts hstart

theorem offsetOf?_mono {body : Body} {position position' offset offset' : Nat}
    (hle : position ≤ position') (h : offsetOf? body.layout position = some offset)
    (h' : offsetOf? body.layout position' = some offset') : offset ≤ offset' := by
  rw [offsetOf?_eq_append] at h h'
  obtain ⟨hi, rfl⟩ := List.getElem?_eq_some_iff.mp h
  obtain ⟨hi', rfl⟩ := List.getElem?_eq_some_iff.mp h'
  rcases Nat.lt_or_eq_of_le hle with hlt | rfl
  · exact Nat.le_of_lt (List.pairwise_iff_getElem.mp body.pairwise_starts_stop position
      position' hi hi' hlt)
  · exact Nat.le_refl _

/-! ### The records of an instruction -/

namespace Place

/-- The record that a parameter of a switch becomes; the flag says whether a target belongs
there. -/
inductive MakesParameter (place : Place) : Bool → Parameter → Record → Prop where
  | values (hi lo : UInt16) : MakesParameter place false (.values hi lo) (.values hi lo)
  | target {position : Nat} {disp : Int32} (h : place.distance position = .ok disp.toInt) :
    MakesParameter place true (.target position) (.target disp)

/-- The records that an instruction becomes. -/
inductive Makes (place : Place) (insn : Instruction) : List Record → Prop where
  | bare (hop : insn.opcode.format = .bare) (hinsn : insn.operands = .bare) :
    Makes place insn [.bare insn.opcode]
  | regDisp (hop : insn.opcode.format = .regDisp) {reg : Register} {disp : Displacement}
    (hinsn : insn.operands = .regDisp reg disp) {amount : Int16}
    (hamount : place.resolve disp = .ok amount.toInt) :
    Makes place insn [.regDisp insn.opcode reg.number amount]
  | shortImmReg (hop : insn.opcode.format = .shortImmReg) {imm : Displacement} {reg : Register}
    (hinsn : insn.operands = .shortImmReg imm reg) {field : UInt8}
    (hfield : reg.shortField? = some field) {amount : Int32}
    (hamount : place.resolve imm = .ok amount.toInt) (hmin : Record.shortMin ≤ amount.toInt)
    (hmax : amount.toInt ≤ Record.shortMax) :
    Makes place insn [.shortImmReg insn.opcode amount field]
  | two16 (hop : insn.opcode.format = .two16) {hi lo : UInt16}
    (hinsn : insn.operands = .two16 hi lo) :
    Makes place insn [.two16 insn.opcode hi lo]
  | switch (hop : insn.opcode.format = .switch) {key : Register} {parameters : List Parameter}
    (hinsn : insn.operands = .switch key parameters) {count : UInt16}
    (hcount : count.toNat = parameters.length) {records : List Record}
    (hrecords : List.Forall₂ (fun param record =>
      place.MakesParameter (insn.opcode.isTargetParameter param.2) param.1 record)
      parameters.zipIdx records) :
    Makes place insn (.switchHeader insn.opcode key.number count :: records)

theorem fit_ok {place : Place} {bits : Nat} {least greatest amount result : Int}
    (h : place.fit bits least greatest amount = .ok result) :
    result = amount ∧ least ≤ amount ∧ amount ≤ greatest := by
  rw [fit] at h
  split at h
  · rename_i hrange
    exact ⟨(Except.ok.inj h).symm, hrange⟩
  · exact absurd h (by simp)

theorem parameter_ok {place : Place} {insn : Instruction} {param : Parameter} {index : Nat}
    {record : Record} (h : place.parameter insn param index = .ok record) :
    place.MakesParameter (insn.opcode.isTargetParameter index) param record := by
  unfold parameter at h
  split at h
  case h_1 hi lo hkind =>
    obtain rfl := Except.ok.inj h
    rw [hkind]
    exact .values hi lo
  case h_2 target hkind =>
    obtain ⟨distance, hdistance, h₁⟩ := bind_eq_ok_iff.mp h
    obtain ⟨amount, hfit, h₂⟩ := bind_eq_ok_iff.mp h₁
    obtain ⟨rfl, hmin, hmax⟩ := fit_ok hfit
    obtain rfl := Except.ok.inj h₂
    rw [hkind]
    refine .target ?_
    rw [Int32.toInt_ofInt_of_le (by omega) (by omega)]
    exact hdistance
  case h_3 => exact absurd h (by simp)

/-- **Laying an instruction out makes the records that belong to it and nothing else.** -/
theorem records_ok {place : Place} {insn : Instruction} {group : List Record}
    (h : place.records insn = .ok group) : place.Makes insn group := by
  rw [records] at h
  split at h
  case h_1 hop hinsn =>
    obtain rfl := Except.ok.inj h
    exact .bare hop hinsn
  case h_2 reg disp hop hinsn =>
    obtain ⟨distance, hdistance, h₁⟩ := bind_eq_ok_iff.mp h
    obtain ⟨amount, hfit, h₂⟩ := bind_eq_ok_iff.mp h₁
    obtain ⟨rfl, hmin, hmax⟩ := fit_ok hfit
    obtain rfl := Except.ok.inj h₂
    refine .regDisp hop hinsn ?_
    rw [Int16.toInt_ofInt_of_le (by omega) (by omega)]
    exact hdistance
  case h_3 imm reg hop hinsn =>
    split at h
    · exact absurd h (by simp)
    · rename_i field hfield
      obtain ⟨distance, hdistance, h₁⟩ := bind_eq_ok_iff.mp h
      obtain ⟨amount, hfit, h₂⟩ := bind_eq_ok_iff.mp h₁
      obtain ⟨rfl, hmin, hmax⟩ := fit_ok hfit
      obtain rfl := Except.ok.inj h₂
      rw [Record.shortMin] at hmin
      rw [Record.shortMax] at hmax
      have hamount : (Int32.ofInt amount).toInt = amount :=
        Int32.toInt_ofInt_of_le (by omega) (by omega)
      refine .shortImmReg hop hinsn hfield ?_ ?_ ?_ <;> rw [hamount]
      · exact hdistance
      · exact hmin
      · exact hmax
  case h_4 hi lo hop hinsn =>
    obtain rfl := Except.ok.inj h
    exact .two16 hop hinsn
  case h_5 key parameters hop hinsn =>
    split at h
    · rename_i hlen
      obtain ⟨records, hrecords, h⟩ := bind_eq_ok_iff.mp h
      obtain rfl := Except.ok.inj h
      refine .switch hop hinsn ?_ ?_
      · rw [UInt16.toNat_ofNat', Nat.mod_eq_of_lt (by omega)]
      · exact (forall₂_of_mapM_eq_ok hrecords).imp fun _ _ => parameter_ok
    · exact absurd h (by simp)
  case h_6 => exact absurd h (by simp)

theorem shortField?_le {reg : Register} {field : UInt8} (h : reg.shortField? = some field) :
    field ≤ Record.shortRegMax := by
  rw [Register.shortField?] at h
  split at h
  · obtain rfl := Option.some.inj h
    exact UInt8.le_refl _
  · split at h
    · rename_i hlt
      obtain rfl := Option.some.inj h
      exact UInt8.le_of_lt hlt
    · exact absurd h (by simp)

theorem MakesParameter.fitsParameter {place : Place} {isTarget : Bool} {param : Parameter}
    {record : Record} (h : place.MakesParameter isTarget param record) :
    record.FitsParameter isTarget := by
  cases h <;> trivial

section Switch

variable {place : Place} {insn : Instruction} {parameters : List Parameter} {records : List Record}

/-- The parameters of a switch become records of the right kinds. -/
theorem fitsParameter_of_forall₂ (h : List.Forall₂ (fun param record =>
      place.MakesParameter (insn.opcode.isTargetParameter param.2) param.1 record)
      parameters.zipIdx records) (i : Nat) (record : Record) (hrecord : records[i]? = some record) :
    record.FitsParameter (insn.opcode.isTargetParameter i) := by
  obtain ⟨⟨param, index⟩, hparam, hmakes⟩ := exists_getElem?_of_forall₂ h.flip hrecord
  rw [List.getElem?_zipIdx, Option.map_eq_some_iff] at hparam
  obtain ⟨param', -, heq⟩ := hparam
  obtain ⟨rfl, rfl⟩ := Prod.mk.inj heq
  rw [Nat.zero_add] at hmakes
  exact hmakes.fitsParameter

theorem length_of_forall₂ (h : List.Forall₂ (fun param record =>
      place.MakesParameter (insn.opcode.isTargetParameter param.2) param.1 record)
      parameters.zipIdx records) : records.length = parameters.length := by
  rw [← h.length_eq, List.length_zipIdx]

end Switch

/-- The records of an instruction make one instruction. -/
theorem Makes.isInstruction {place : Place} {insn : Instruction} {group : List Record}
    (h : place.Makes insn group) : IsInstruction group := by
  cases h with
  | bare hop => exact .bare hop
  | regDisp hop => exact .regDisp hop _ _
  | shortImmReg hop _ hfield _ hmin hmax => exact .shortImmReg hop hmin hmax (shortField?_le hfield)
  | two16 hop => exact .two16 hop _ _
  | switch hop _ hcount hrecords =>
    exact .switch hop _ (hcount.trans (length_of_forall₂ hrecords).symm)
      (fitsParameter_of_forall₂ hrecords)

/-- **The records of an instruction take the room that was reserved for them.** -/
theorem Makes.totalSize {place : Place} {insn : Instruction} {group : List Record}
    (h : place.Makes insn group) : totalSize Record.length group = insn.length := by
  cases h with
  | bare hop hinsn | regDisp hop hinsn | shortImmReg hop hinsn | two16 hop hinsn =>
    rw [Instruction.length, hinsn, hop]
    rfl
  | @switch hop key parameters hinsn count hcount records hrecords =>
    have hsize : ClassImage.totalSize Record.length records =
        parameters.length * Record.parameterLength := by
      rw [← length_of_forall₂ hrecords]
      refine totalSize_of_forall fun record hmem => ?_
      obtain ⟨i, hi⟩ := List.mem_iff_getElem?.mp hmem
      exact (fitsParameter_of_forall₂ hrecords i record hi).length
    rw [Instruction.length, hinsn, totalSize_cons, hsize]
    rfl

end Place

/-! ### The records of a body -/

/-- The groups of records, one per instruction, that a body was laid out as. -/
structure IsAssembly (settings : Settings) (body : Body) (assembly : Assembly)
    (groups : List (List Record)) : Prop where
  stop_le : body.stop ≤ 0xFFFF
  records : assembly.records = groups.flatten
  makes : List.Forall₂ (fun placed group =>
    Place.Makes ⟨body.layout, placed.2, placed.1.1⟩ placed.1.2 group)
    (body.starts.zip body.instructions).zipIdx groups
  handlers : List.Forall₂ (fun handler placed => handler.place body.layout = .ok placed)
    body.handlers assembly.handlers
  lines : assembly.lines = if settings.lineNumbers
    then lineRunsOnto none [] (body.starts.zip body.instructions) else []

theorem toList_layout (body : Body) : body.layout.toList = body.starts.zip body.instructions :=
  Layout.toList_ofList 0 body.instructions

theorem assemble_ok {settings : Settings} {body : Body} {assembly : Assembly}
    (h : body.assemble settings = .ok assembly) :
    ∃ groups, IsAssembly settings body assembly groups := by
  simp only [assemble, toList_layout] at h
  by_cases hstop : 0xFFFF < body.layout.stop
  · simp only [if_pos hstop] at h
    exact absurd h (by simp [bind, Except.bind, throw, throwThe, MonadExceptOf.throw])
  · simp only [if_neg hstop] at h
    obtain ⟨groups, hgroups, h⟩ := bind_eq_ok_iff.mp h
    obtain ⟨handlers, hhandlers, h⟩ := bind_eq_ok_iff.mp h
    obtain rfl := Except.ok.inj h
    refine ⟨groups, ?_, rfl, ?_, forall₂_of_mapM_eq_ok hhandlers, rfl⟩
    · rw [layout_eq] at hstop
      exact Nat.le_of_not_lt hstop
    · exact (forall₂_of_mapM_eq_ok hgroups).imp fun _ _ => Place.records_ok

namespace IsAssembly

variable {settings : Settings} {body : Body} {assembly : Assembly} {groups : List (List Record)}

/-- Every instruction has its group of records. -/
theorem exists_group (h : IsAssembly settings body assembly groups) {i : Nat} {insn : Instruction}
    (hinsn : body.instructions[i]? = some insn) : ∃ offset group, body.starts[i]? = some offset ∧
      groups[i]? = some group ∧ Place.Makes ⟨body.layout, i, offset⟩ insn group := by
  have hi : i < body.starts.length := by
    rw [length_starts]
    exact (List.getElem?_eq_some_iff.mp hinsn).1
  have hstart := List.getElem?_eq_getElem hi
  have hplaced : (body.starts.zip body.instructions).zipIdx[i]? =
      some ((body.starts[i], insn), i) := by
    have hzip : (body.starts.zip body.instructions)[i]? = some (body.starts[i], insn) :=
      List.getElem?_zip_eq_some.mpr ⟨hstart, hinsn⟩
    rw [List.getElem?_zipIdx, hzip, Nat.zero_add]
    rfl
  obtain ⟨group, hgroup, hmakes⟩ := exists_getElem?_of_forall₂ h.makes hplaced
  exact ⟨body.starts[i], group, hstart, hgroup, hmakes⟩

theorem length_groups (h : IsAssembly settings body assembly groups) :
    groups.length = body.instructions.length := by
  rw [← h.makes.length_eq, List.length_zipIdx, List.length_zip, length_starts, Nat.min_self]

theorem map_fst_zip (h : IsAssembly settings body assembly groups) :
    (body.starts.zip groups).map Prod.fst = body.starts :=
  List.map_fst_zip (Nat.le_of_eq (body.length_starts.trans h.length_groups.symm))

theorem map_snd_zip (h : IsAssembly settings body assembly groups) :
    (body.starts.zip groups).map Prod.snd = groups :=
  List.map_snd_zip (Nat.le_of_eq (h.length_groups.trans body.length_starts.symm))

theorem isInstruction (h : IsAssembly settings body assembly groups) :
    ∀ group ∈ groups, IsInstruction group := by
  intro group hmem
  obtain ⟨placed, -, hmakes⟩ := exists_mem_of_forall₂ h.makes hmem
  exact hmakes.isInstruction

theorem map_totalSize (h : IsAssembly settings body assembly groups) :
    groups.map (totalSize Record.length) = body.instructions.map Instruction.length := by
  refine List.ext_getElem? fun i => ?_
  rw [List.getElem?_map, List.getElem?_map]
  cases hinsn : body.instructions[i]? with
  | none =>
    have hlen := List.getElem?_eq_none_iff.mp hinsn
    rw [List.getElem?_eq_none_iff.mpr (by rwa [h.length_groups])]
    rfl
  | some insn =>
    obtain ⟨offset, group, -, hgroup, hmakes⟩ := h.exists_group hinsn
    rw [hgroup, Option.map_some, Option.map_some, hmakes.totalSize]

/-- The groups start where the instructions do. -/
theorem offsetsFrom_groups (h : IsAssembly settings body assembly groups) :
    offsetsFrom (totalSize Record.length) 0 groups = body.starts := by
  have hmap := congrArg (offsetsFrom id 0) h.map_totalSize
  rwa [offsetsFrom_map, offsetsFrom_map] at hmap

theorem code_eq (h : IsAssembly settings body assembly groups) :
    assembly.code = groups.flatMap Image.encodeAll := by
  rw [Assembly.code, h.records, List.flatten_eq_flatMap, List.flatMap_assoc]
  rfl

theorem length_code (h : IsAssembly settings body assembly groups) :
    assembly.code.length = body.stop := by
  have hmap := congrArg (ClassImage.totalSize id) h.map_totalSize
  rw [totalSize_map, totalSize_map] at hmap
  calc assembly.code.length
      = ClassImage.totalSize Record.length groups.flatten := by
        rw [Assembly.code, h.records]
        exact Image.length_encodeAll groups.flatten
    _ = ClassImage.totalSize (ClassImage.totalSize Record.length) groups := totalSize_flatten ..
    _ = body.stop := hmap

/-- **The code of a body disassembles into the groups of its instructions.** -/
theorem disassemble (h : IsAssembly settings body assembly groups) : ∃ records : Layout Record,
    Image.disassemble assembly.code = .ok records ∧ records.toList.map Prod.snd = groups.flatten ∧
      Image.grouped records.toList = body.starts.zip groups := by
  refine ⟨Layout.ofList 0 groups.flatten, ?_, ?_, ?_⟩
  · rw [h.code_eq]
    exact Image.disassemble_flatMap h.isInstruction
  · rw [Layout.toList_ofList]
    exact List.map_snd_zip (Nat.le_of_eq (length_offsetsFrom ..).symm)
  · rw [Image.grouped_ofList h.isInstruction, h.offsetsFrom_groups]

end IsAssembly

/-! ### Tables of a body -/

theorem wordOffset_ok {body : Body} {position : Nat} {word : UInt16} (hstop : body.stop ≤ 0xFFFF)
    (h : wordOffset body.layout position = .ok word) :
    offsetOf? body.layout position = some word.toNat := by
  rw [wordOffset] at h
  split at h
  · rename_i offset hoffset
    obtain rfl := Except.ok.inj h
    have hle := offsetOf?_le hoffset
    rw [hoffset, UInt16.toNat_ofNat', Nat.mod_eq_of_lt (by omega)]
  · exact absurd h (by simp)

/-- The offsets of a handler are those of its positions. -/
theorem Handler.place_ok {body : Body} {handler : Handler} {placed : Image.Handler}
    (hstop : body.stop ≤ 0xFFFF) (h : handler.place body.layout = .ok placed) :
    offsetOf? body.layout handler.start = some placed.start.toNat ∧
      offsetOf? body.layout handler.stop = some placed.stop.toNat ∧
      offsetOf? body.layout handler.entry = some placed.entry.toNat ∧
      placed.catchType = handler.catchType := by
  rw [Handler.place] at h
  obtain ⟨start, hstart, h⟩ := bind_eq_ok_iff.mp h
  obtain ⟨stop, hstop', h⟩ := bind_eq_ok_iff.mp h
  obtain ⟨entry, hentry, h⟩ := bind_eq_ok_iff.mp h
  obtain rfl := Except.ok.inj h
  exact ⟨wordOffset_ok hstop hstart, wordOffset_ok hstop hstop', wordOffset_ok hstop hentry, rfl⟩

/-- The line entry of a placed instruction. -/
def lineEntry (placed : Nat × Instruction) : LineEntry := ⟨UInt16.ofNat placed.1, placed.2.line⟩

/-- Entries are made for some of the instructions, in order. -/
theorem exists_lineRunsOnto_eq (placed : List (Nat × Instruction)) (last : Option UInt16)
    (done : List LineEntry) : ∃ entries, lineRunsOnto last done placed = done.reverse ++ entries ∧
      entries.Sublist (placed.map lineEntry) := by
  induction placed generalizing last done with
  | nil => exact ⟨[], by rw [lineRunsOnto, List.append_nil], List.nil_sublist _⟩
  | cons first placed ih =>
    obtain ⟨offset, insn⟩ := first
    rw [lineRunsOnto, List.map_cons]
    by_cases hlast : last = some insn.line
    · rw [if_pos hlast]
      obtain ⟨entries, heq, hsub⟩ := ih last done
      exact ⟨entries, heq, hsub.cons _⟩
    · rw [if_neg hlast]
      obtain ⟨entries, heq, hsub⟩ := ih (some insn.line) (⟨UInt16.ofNat offset, insn.line⟩ :: done)
      refine ⟨lineEntry (offset, insn) :: entries, ?_, hsub.cons_cons _⟩
      rw [heq, List.reverse_cons, List.append_assoc, List.singleton_append]
      rfl

namespace IsAssembly

variable {settings : Settings} {body : Body} {assembly : Assembly} {groups : List (List Record)}

theorem lines_sublist (h : IsAssembly settings body assembly groups) :
    assembly.lines.Sublist ((body.starts.zip body.instructions).map lineEntry) := by
  rw [h.lines]
  split
  · obtain ⟨entries, heq, hsub⟩ :=
      exists_lineRunsOnto_eq (body.starts.zip body.instructions) none []
    rw [heq]
    exact hsub
  · exact List.nil_sublist _

/-- The offsets of line entries are some of the starts of instructions, in order. -/
theorem line_offsets_sublist (h : IsAssembly settings body assembly groups) :
    (assembly.lines.map fun entry => entry.offset.toNat).Sublist body.starts := by
  have hmap : ((body.starts.zip body.instructions).map lineEntry).map
      (fun entry => entry.offset.toNat) = body.starts := by
    have hsame : ∀ placed ∈ body.starts.zip body.instructions,
        (lineEntry placed).offset.toNat = placed.1 := by
      intro placed hmem
      have hlt := lt_stop_of_mem_starts (List.of_mem_zip hmem).1
      have hle := h.stop_le
      rw [lineEntry, UInt16.toNat_ofNat', Nat.mod_eq_of_lt (by omega)]
    rw [List.map_map]
    exact (List.map_congr_left hsame).trans (List.map_fst_zip (Nat.le_of_eq body.length_starts))
  have := h.lines_sublist.map fun entry => entry.offset.toNat
  rwa [hmap] at this

end IsAssembly

end Body

end ClassImage
