import ClassImage.Proofs.Decoding
import ClassImage.Proofs.NopSimulation
import ClassImage.Proofs.Translation

/-!
# Where operations go

A `Placement` lists the offsets of the operations of a method, each with the offset of its
instruction in the image, unless the instruction was dropped. `Placed` ties such a list to the two
codes: the instructions of the image are those that have a place, in order, they mean what the
operations mean, and only a `nop` has none. Every converted method has a placement
(`KeepsCode.placed`). A reference to a dropped instruction goes to the next one that is left, which
is `Placement.landing`.
-/

namespace ClassImage

/-! ### Lists with gaps -/

/-- Gives offsets in turn to what is kept, and none to what is not. -/
def spread : List Bool → List Nat → List (Option Nat)
  | [], _ => []
  | true :: kept, starts => starts.head? :: spread kept starts.tail
  | false :: kept, starts => none :: spread kept starts

theorem length_spread (kept : List Bool) (starts : List Nat) :
    (spread kept starts).length = kept.length := by
  induction kept generalizing starts with
  | nil => rfl
  | cons stays kept ih => cases stays <;> simp [spread, ih]

theorem getElem?_spread {kept : List Bool} {p : Nat} {stays : Bool} (h : kept[p]? = some stays)
    (starts : List Nat) :
    (spread kept starts)[p]? =
      some (if stays then starts[(kept.take p).count true]? else none) := by
  induction kept generalizing p starts with
  | nil => simp at h
  | cons first kept ih =>
    cases p with
    | zero =>
      obtain rfl : first = stays := by simpa using h
      cases first <;> simp [spread, List.head?_eq_getElem?]
    | succ p =>
      have hnext := ih (p := p) (by simpa using h)
      cases first <;> simp [spread, hnext]

theorem take_spread (kept : List Bool) (starts : List Nat) (p : Nat) :
    (spread kept starts).take p = spread (kept.take p) starts := by
  induction kept generalizing starts p with
  | nil => simp [spread]
  | cons stays kept ih =>
    cases p with
    | zero => simp [spread]
    | succ p => cases stays <;> simp [spread, ih]

theorem drop_spread (kept : List Bool) (starts : List Nat) (p : Nat) :
    (spread kept starts).drop p = spread (kept.drop p)
      (starts.drop ((kept.take p).count true)) := by
  induction kept generalizing starts p with
  | nil => simp [spread]
  | cons stays kept ih =>
    cases p with
    | zero => simp
    | succ p => cases stays <;> simp [spread, ih]

/-- Without the gaps the offsets are left. -/
theorem filterMap_spread {kept : List Bool} {starts : List Nat}
    (h : kept.count true ≤ starts.length) :
    (spread kept starts).filterMap id = starts.take (kept.count true) := by
  induction kept generalizing starts with
  | nil => simp [spread]
  | cons stays kept ih =>
    cases stays with
    | false =>
      rw [List.count_cons_of_ne (by decide)] at h ⊢
      exact ih h
    | true =>
      rw [List.count_cons_self] at h ⊢
      cases starts with
      | nil => exact absurd h (Nat.not_succ_le_zero _)
      | cons start starts =>
        rw [spread, List.head?_cons, List.tail_cons, List.filterMap_cons, List.take_succ_cons]
        exact congrArg (start :: ·) (ih (Nat.le_of_succ_le_succ h))

/-- Something is listed for what is kept or not, as it is. -/
theorem exists_of_getElem?_spread {kept : List Bool} {starts : List Nat} {p : Nat}
    {place : Option Nat} (h : (spread kept starts)[p]? = some place) :
    ∃ stays, kept[p]? = some stays ∧
      place = if stays then starts[(kept.take p).count true]? else none := by
  have hlt : p < kept.length := by
    rw [← length_spread kept starts]
    exact (List.getElem?_eq_some_iff.mp h).1
  have hkept := List.getElem?_eq_getElem hlt
  exact ⟨_, hkept, Option.some.inj (h.symm.trans (getElem?_spread hkept starts))⟩

theorem kept_of_getElem?_spread {kept : List Bool} {starts : List Nat} {p start : Nat}
    (h : (spread kept starts)[p]? = some (some start)) :
    kept[p]? = some true ∧ starts[(kept.take p).count true]? = some start := by
  obtain ⟨stays, hkept, hplace⟩ := exists_of_getElem?_spread h
  cases stays with
  | false => simp at hplace
  | true => exact ⟨hkept, hplace.symm⟩

theorem not_kept_of_getElem?_spread {kept : List Bool} {starts : List Nat} {p : Nat}
    (hcount : kept.count true ≤ starts.length) (h : (spread kept starts)[p]? = some none) :
    kept[p]? = some false := by
  obtain ⟨stays, hkept, hplace⟩ := exists_of_getElem?_spread h
  cases stays with
  | false => exact hkept
  | true =>
    -- What is kept takes one of the offsets, and there is one for each.
    have hnext : (kept.take (p + 1)).count true = (kept.take p).count true + 1 := by
      rw [List.take_add_one, hkept, List.count_append]
      rfl
    have hle := (List.take_sublist (p + 1) kept).count_le true
    have hend := List.getElem?_eq_none_iff.mp hplace.symm
    omega

/-! ### Placements -/

/-- The offsets of operations, each with the offset of its instruction unless it was dropped. -/
abbrev Placement := List (Nat × Option Nat)

namespace Placement

/-- Where a reference to the operation at an offset leads: to its instruction, or to the next one
that is left. -/
def landing (placement : Placement) (offset : Nat) : Option Nat :=
  (placement.dropWhile fun placed => placed.1 != offset).findSome? Prod.snd

/-- The number of instructions that are left before a position. -/
def keptBefore (placement : Placement) (position : Nat) : Nat :=
  ((placement.take position).filterMap Prod.snd).length

theorem dropWhile_eq_drop {placement : Placement}
    (hincreasing : (placement.map Prod.fst).Pairwise (· < ·)) {p offset : Nat}
    (h : (placement.map Prod.fst)[p]? = some offset) :
    (placement.dropWhile fun placed => placed.1 != offset) = placement.drop p := by
  induction placement generalizing p with
  | nil => simp at h
  | cons first placement ih =>
    rw [List.map_cons, List.pairwise_cons] at hincreasing
    cases p with
    | zero =>
      obtain rfl : first.1 = offset := by simpa using h
      simp
    | succ p =>
      rw [List.map_cons, List.getElem?_cons_succ] at h
      have hlt := hincreasing.1 offset (List.mem_of_getElem? h)
      have hne : (first.1 != offset) = true := by simpa using Nat.ne_of_lt hlt
      rw [List.dropWhile_cons, if_pos hne, List.drop_succ_cons]
      exact ih hincreasing.2 h

section Zip

variable {offsets starts : List Nat} {kept : List Bool}

theorem map_fst_zip_spread (hlen : offsets.length = kept.length) (starts : List Nat) :
    (offsets.zip (spread kept starts)).map Prod.fst = offsets := by
  refine List.map_fst_zip (Nat.le_of_eq ?_)
  rw [length_spread, hlen]

theorem map_snd_zip_spread (hlen : offsets.length = kept.length) (starts : List Nat) :
    (offsets.zip (spread kept starts)).map Prod.snd = spread kept starts := by
  refine List.map_snd_zip (Nat.le_of_eq ?_)
  rw [length_spread, hlen]

theorem filterMap_snd (placement : Placement) :
    placement.filterMap Prod.snd = (placement.map Prod.snd).filterMap id := by
  rw [List.filterMap_map]
  rfl

theorem filterMap_zip_spread (hlen : offsets.length = kept.length)
    (hcount : starts.length = kept.count true) :
    (offsets.zip (spread kept starts)).filterMap Prod.snd = starts := by
  rw [filterMap_snd, map_snd_zip_spread hlen, filterMap_spread (Nat.le_of_eq hcount.symm), ← hcount,
    List.take_length]

theorem keptBefore_zip_spread (hlen : offsets.length = kept.length)
    (hcount : starts.length = kept.count true) (p : Nat) :
    keptBefore (offsets.zip (spread kept starts)) p = (kept.take p).count true := by
  have hle : (kept.take p).count true ≤ starts.length := by
    rw [hcount]
    exact (List.take_sublist p kept).count_le true
  rw [keptBefore, filterMap_snd, List.map_take, map_snd_zip_spread hlen, take_spread,
    filterMap_spread hle, List.length_take, Nat.min_eq_left hle]

/-- **A reference to an operation goes to what is left from there on.** -/
theorem landing_zip_spread (hlen : offsets.length = kept.length)
    (hcount : starts.length = kept.count true) (hincreasing : offsets.Pairwise (· < ·))
    {p offset : Nat} (h : offsets[p]? = some offset) :
    landing (offsets.zip (spread kept starts)) offset = starts[(kept.take p).count true]? := by
  have hfst := map_fst_zip_spread hlen starts
  have hrest : (starts.drop ((kept.take p).count true)).length = (kept.drop p).count true := by
    have hsplit := congrArg (List.count true) (List.take_append_drop p kept)
    rw [List.count_append] at hsplit
    rw [List.length_drop]
    omega
  rw [landing, dropWhile_eq_drop (by rwa [hfst]) (by rwa [hfst]),
    ← List.head?_filterMap, filterMap_snd, List.map_drop, map_snd_zip_spread hlen, drop_spread,
    filterMap_spread (Nat.le_of_eq hrest.symm), ← hrest, List.take_length, List.head?_drop]

end Zip

end Placement

namespace Conversion

open ClassFile (ConstantPool)
open Bytecode (Decoded Op)
open Image (Record Opcode)
open Body (IsAssembly Instruction Operands)

/-! ### Bodies that are laid out -/

section Finished

variable {settings : Settings} {lowered : Body}

/-- For each instruction of a lowered body, whether it is laid out. -/
def laidOut (settings : Settings) (lowered : Body) : List Bool :=
  if settings.dropNops then lowered.keep else List.replicate lowered.instructions.length true

/-- Where a position of a lowered body goes: to the number of instructions that are laid out before
it. -/
def movedTo (settings : Settings) (lowered : Body) (position : Nat) : Nat :=
  ((laidOut settings lowered).take position).count true

theorem length_laidOut (settings : Settings) (lowered : Body) :
    (laidOut settings lowered).length = lowered.instructions.length := by
  rw [laidOut]
  split
  · exact Body.length_keep lowered
  · exact List.length_replicate

theorem laidOut_of_drop (hdrop : settings.dropNops = true) :
    laidOut settings lowered = lowered.keep :=
  if_pos hdrop

theorem movedTo_of_drop (hdrop : settings.dropNops = true) :
    movedTo settings lowered = lowered.survivorsBefore := by
  funext position
  rw [movedTo, laidOut_of_drop hdrop, Body.survivorsBefore]

theorem finished_of_drop (hdrop : settings.dropNops = true) :
    finished settings lowered = lowered.withoutNops :=
  if_pos hdrop

theorem laidOut_of_whole (hnops : settings.dropNops = false) :
    laidOut settings lowered = List.replicate lowered.instructions.length true :=
  if_neg (ne_true_of_eq_false hnops)

theorem movedTo_of_whole (hnops : settings.dropNops = false) {position : Nat}
    (h : position ≤ lowered.instructions.length) :
    movedTo settings lowered position = position := by
  rw [movedTo, laidOut_of_whole hnops, List.take_replicate, List.count_replicate_self,
    Nat.min_eq_left h]

theorem finished_of_whole (hnops : settings.dropNops = false) :
    finished settings lowered = lowered :=
  if_neg (ne_true_of_eq_false hnops)

theorem length_finished (settings : Settings) (lowered : Body) :
    (finished settings lowered).instructions.length = (laidOut settings lowered).count true := by
  cases hnops : settings.dropNops with
  | true => rw [finished_of_drop hnops, laidOut_of_drop hnops, Body.length_withoutNops]
  | false => rw [finished_of_whole hnops, laidOut_of_whole hnops, List.count_replicate_self]

/-- **An instruction that is laid out is found where its position goes**, with its targets moved
alike. -/
theorem finished_getElem? (hvalid : lowered.validate = .ok ()) {p : Nat} {insn : Instruction}
    (hinsn : lowered.instructions[p]? = some insn)
    (hkept : (laidOut settings lowered)[p]? = some true) :
    (finished settings lowered).instructions[movedTo settings lowered p]? =
      some (insn.mapTargets (movedTo settings lowered)) := by
  cases hnops : settings.dropNops with
  | true =>
    rw [laidOut_of_drop hnops] at hkept
    rw [finished_of_drop hnops, movedTo_of_drop hnops]
    exact Body.withoutNops_getElem? hinsn hkept
  | false =>
    have hbound := ((Body.validate_eq_ok_iff lowered).mp hvalid).1 insn (List.mem_of_getElem? hinsn)
    have hlt := (List.getElem?_eq_some_iff.mp hinsn).1
    rw [finished_of_whole hnops, movedTo_of_whole hnops (Nat.le_of_lt hlt), hinsn, Option.some_inj]
    exact (Instruction.mapTargets_eq_self fun target ht =>
      movedTo_of_whole hnops (Nat.le_of_lt (hbound target ht))).symm

/-- Only a `nop` is dropped. -/
theorem isNop_of_not_laidOut {p : Nat} {insn : Instruction}
    (hinsn : lowered.instructions[p]? = some insn)
    (hdropped : (laidOut settings lowered)[p]? = some false) :
    settings.dropNops = true ∧ insn.isNop = true := by
  cases hnops : settings.dropNops with
  | true =>
    rw [laidOut_of_drop hnops] at hdropped
    exact ⟨rfl, Body.isNop_of_keep_eq_false hinsn hdropped⟩
  | false =>
    rw [laidOut_of_whole hnops, List.getElem?_replicate] at hdropped
    exact absurd hdropped (by split <;> simp)

/-- A `nop` that is left is the last instruction that is. -/
theorem not_laidOut_of_isNop (hdrop : settings.dropNops = true) {p q : Nat} {insn : Instruction}
    (hinsn : lowered.instructions[p]? = some insn) (hnop : insn.isNop = true)
    (hkept : (laidOut settings lowered)[p]? = some true) (hpq : p < q) :
    (laidOut settings lowered)[q]? ≠ some true := by
  intro hq
  rw [laidOut_of_drop hdrop] at hkept hq
  rw [Body.keep_getElem? hinsn, hnop] at hkept
  have hbehind : (lowered.keep.drop (p + 1)).any id = true := by
    refine List.any_eq_true.mpr ⟨true, ?_, rfl⟩
    refine List.mem_of_getElem? (i := q - (p + 1)) ?_
    rw [List.getElem?_drop, Nat.add_sub_cancel' hpq]
    exact hq
  rw [hbehind] at hkept
  simp at hkept

end Finished

/-! ### Operations that do nothing -/

/-- Nothing but a plain operation means one. -/
theorem eq_plain_of_meaning_op {constants : ConstantPool} {starts : List Nat} {op : Op}
    {plain : Plain} (h : op.meaning constants starts = some (.plain plain)) :
    op = .plain plain := by
  cases op with
  | plain other =>
    obtain rfl := Meaning.plain.inj (Option.some.inj h)
    rfl
  | load isWide index =>
    obtain ⟨constant, -, hpush⟩ := Option.bind_eq_some_iff.mp h
    cases isWide <;> cases constant <;> simp [Bytecode.pushMeaning] at hpush
  | localVar op slot => cases op <;> simp [Op.meaning] at h
  | branch jump target => cases jump <;> simp [Op.meaning] at h
  | tableSwitch | lookupSwitch =>
    obtain ⟨default, -, h⟩ := Option.bind_eq_some_iff.mp h
    obtain ⟨targets, -, h⟩ := Option.bind_eq_some_iff.mp h
    simp at h
  | _ => simp [Op.meaning] at h

theorem eq_plain_of_meaning {T : Tables} {opcode : Opcode} {operands : Operands} {plain : Plain}
    (h : T.meaning opcode operands = some (.plain plain)) : opcode = .plain plain := by
  cases operands with
  | bare => cases opcode <;> simp_all [Tables.meaning]
  | regDisp reg disp =>
    cases opcode <;> cases disp <;> simp [Tables.meaning, Tables.regDispMeaning] at h
  | shortImmReg imm reg => cases opcode <;> cases imm <;> simp [Tables.meaning] at h
  | two16 hi lo =>
    cases opcode with
    | pushLong | pushDouble | pushString =>
      simp only [Tables.meaning, Tables.two16Meaning, Tables.constantMeaning] at h
      split at h
      · split at h <;> simp at h
      · simp at h
    | _ => simp [Tables.meaning, Tables.two16Meaning] at h
  | switch key parameters =>
    simp only [Tables.meaning] at h
    split at h
    · unfold Tables.switchMeaning at h
      split at h <;> simp at h
    · simp at h

theorem eq_of_meaning_plain {T : Tables} {operands : Operands} {plain : Plain} {m : Meaning}
    (h : T.meaning (.plain plain) operands = some m) : m = .plain plain := by
  cases operands with
  | bare => exact (Option.some.inj h).symm
  | regDisp reg disp =>
    cases disp <;> exact absurd h (by simp [Tables.meaning, Tables.regDispMeaning])
  | shortImmReg imm reg => cases imm <;> exact absurd h (by simp [Tables.meaning])
  | two16 hi lo => exact absurd h (by simp [Tables.meaning, Tables.two16Meaning])
  | switch key parameters =>
    simp only [Tables.meaning, Tables.switchMeaning] at h
    split at h <;> simp at h

/-- The instruction of an operation does nothing exactly if the operation does nothing. -/
theorem Keeps.isNop_iff {constants : ConstantPool} {starts : List Nat} {op : Op} {opcode : Opcode}
    {operands : Operands} {T : Tables} (h : Keeps constants starts op (opcode, operands) T) :
    opcode = .plain .nop ↔ op = .plain .nop := by
  obtain ⟨m, hop, hmeaning⟩ := h
  constructor
  · rintro rfl
    rw [eq_of_meaning_plain hmeaning] at hop
    exact eq_plain_of_meaning_op hop
  · rintro rfl
    obtain rfl := Option.some.inj hop
    exact eq_plain_of_meaning hmeaning

/-! ### Placements of converted methods -/

/-- The operations of a method and the instructions of an image have a placement. -/
structure Placed (settings : Settings) (constants : ConstantPool) (decoded : List Decoded)
    (encoded : Bytes) (placement : Placement) (T : Tables) : Prop where
  offsets : placement.map Prod.fst = decoded.map Decoded.offset
  /-- The instructions of the image are those that have a place, and they mean what the operations
  mean, with jumps to where the operations went. -/
  instructions : ∃ records, Image.disassemble encoded = .ok records ∧
    (Image.grouped records.toList).map Prod.fst = placement.filterMap Prod.snd ∧
    ∀ (position : Nat) entry start, decoded[position]? = some entry →
      placement[position]? = some (entry.offset, some start) →
      ∃ group m, (start, group) ∈ Image.grouped records.toList ∧
        entry.op.meaning constants (decoded.map Decoded.offset) = some m ∧
        Image.meaningAt T (placement.filterMap Prod.snd) start group =
          some (m.mapTargets placement.keptBefore)
  /-- Only a `nop` is dropped. -/
  dropped : ∀ (position : Nat) entry, decoded[position]? = some entry →
    placement[position]? = some (entry.offset, none) →
    settings.dropNops = true ∧ entry.op = .plain .nop
  /-- A `nop` that is left although they are dropped is the last instruction. -/
  left : settings.dropNops = true → ∀ (position : Nat) entry start,
    decoded[position]? = some entry →
    entry.op = .plain .nop → placement[position]? = some (entry.offset, some start) →
    ∀ later offset place, position < later → placement[later]? = some (offset, place) → place = none

section Code

variable {settings : Settings} {constants : ConstantPool} {code : ClassFile.Code}
  {decoded : List Decoded} {lowered : Body} {groups : List (List Record)} {assembly : Body.Assembly}
  {T : Tables}

/-- The placement of code that is lowered and laid out. -/
def placementOf (settings : Settings) (decoded : List Decoded) (lowered : Body) : Placement :=
  (decoded.map Decoded.offset).zip
    (spread (laidOut settings lowered) (finished settings lowered).starts)

theorem Lowered.length_offsets (h : Lowered constants code decoded lowered T)
    (settings : Settings) :
    (decoded.map Decoded.offset).length = (laidOut settings lowered).length := by
  rw [List.length_map, length_laidOut]
  exact h.instructions.length_eq

theorem length_starts_finished (settings : Settings) (lowered : Body) :
    (finished settings lowered).starts.length = (laidOut settings lowered).count true := by
  rw [Body.length_starts, length_finished]

theorem Lowered.filterMap_placementOf (h : Lowered constants code decoded lowered T)
    (settings : Settings) :
    (placementOf settings decoded lowered).filterMap Prod.snd =
      (finished settings lowered).starts :=
  Placement.filterMap_zip_spread (h.length_offsets settings)
    (length_starts_finished settings lowered)

theorem Lowered.keptBefore_placementOf (h : Lowered constants code decoded lowered T)
    (settings : Settings) :
    (placementOf settings decoded lowered).keptBefore = movedTo settings lowered :=
  funext (Placement.keptBefore_zip_spread (h.length_offsets settings)
    (length_starts_finished settings lowered))

/-- What has a place is laid out there. -/
theorem laidOut_of_getElem?_placementOf {p offset start : Nat}
    (h : (placementOf settings decoded lowered)[p]? = some (offset, some start)) :
    (decoded.map Decoded.offset)[p]? = some offset ∧ (laidOut settings lowered)[p]? = some true ∧
      (finished settings lowered).starts[movedTo settings lowered p]? = some start := by
  obtain ⟨hoffset, hspread⟩ := List.getElem?_zip_eq_some.mp h
  exact ⟨hoffset, kept_of_getElem?_spread hspread⟩

/-- What has no place is not laid out. -/
theorem not_laidOut_of_getElem?_placementOf {p offset : Nat}
    (h : (placementOf settings decoded lowered)[p]? = some (offset, none)) :
    (laidOut settings lowered)[p]? = some false := by
  have hcount := Nat.le_of_eq (length_starts_finished settings lowered).symm
  exact not_kept_of_getElem?_spread hcount (List.getElem?_zip_eq_some.mp h).2

/-- **The operations of a converted method have a placement.** -/
theorem KeepsCode.placed (h : KeepsCode settings constants code decoded lowered groups assembly T) :
    Placed settings constants decoded assembly.code (placementOf settings decoded lowered) T where
  offsets := Placement.map_fst_zip_spread (h.lowers.length_offsets settings) _
  instructions := by
    obtain ⟨records, hrecords, -, hgrouped⟩ := h.assembles.disassemble
    have hstarts := h.lowers.filterMap_placementOf settings
    refine ⟨records, hrecords, ?_, ?_⟩ <;> rw [hgrouped, hstarts]
    · exact h.assembles.map_fst_zip
    · rw [h.lowers.keptBefore_placementOf settings]
      intro p entry start hentry hplaced
      obtain ⟨-, hkept, hstart⟩ := laidOut_of_getElem?_placementOf hplaced
      obtain ⟨insn, hinsn, -, m, hop, hmeaning⟩ :=
        exists_getElem?_of_forall₂ h.lowers.instructions hentry
      have hmoved := finished_getElem? h.lowers.valid hinsn hkept
      have hrenamed : T.meaning insn.opcode (insn.operands.mapTargets (movedTo settings lowered)) =
          some (m.mapTargets (movedTo settings lowered)) := by
        rw [T.meaning_mapTargets, hmeaning]
        rfl
      obtain ⟨offset, group, hgroup, hat⟩ :=
        h.assembles.meaningAt (validate_finished h.lowers.valid) hmoved hrenamed
      obtain rfl : offset = start :=
        Option.some.inj ((List.getElem?_zip_eq_some.mp hgroup).1.symm.trans hstart)
      exact ⟨group, m, List.mem_of_getElem? hgroup, hop, hat⟩
  dropped := by
    intro p entry hentry hplaced
    obtain ⟨insn, hinsn, -, hkeeps⟩ := exists_getElem?_of_forall₂ h.lowers.instructions hentry
    obtain ⟨hdrop, hnop⟩ := isNop_of_not_laidOut hinsn (not_laidOut_of_getElem?_placementOf hplaced)
    exact ⟨hdrop, hkeeps.isNop_iff.mp (eq_of_beq hnop)⟩
  left := by
    intro hdrop p entry start hentry hop hplaced later offset place hlater hbehind
    obtain ⟨insn, hinsn, -, hkeeps⟩ := exists_getElem?_of_forall₂ h.lowers.instructions hentry
    have hnop : insn.isNop = true := beq_iff_eq.mpr (hkeeps.isNop_iff.mpr hop)
    obtain ⟨-, hkept, -⟩ := laidOut_of_getElem?_placementOf hplaced
    cases place with
    | none => rfl
    | some start' =>
      obtain ⟨-, hkept', -⟩ := laidOut_of_getElem?_placementOf hbehind
      exact absurd hkept' (not_laidOut_of_isNop hdrop hinsn hnop hkept hlater)

end Code

end Conversion

end ClassImage
