import Mathlib.Data.List.Basic
import ClassImage.Body.Basic

/-!
# References of a body

Renaming the positions that an instruction refers to renames its list of targets and changes nothing
else; `Instruction.skeleton` is what is left when they are blanked out. A body is valid exactly when
every reference names an instruction (`validate_eq_ok_iff`).
-/

namespace ClassImage.Body

/-! ### Renaming -/

theorem Displacement.targets_mapTarget (f : Nat → Nat) (disp : Displacement) :
    (disp.mapTarget f).targets = disp.targets.map f := by
  cases disp <;> rfl

theorem Displacement.mapTarget_mapTarget (f g : Nat → Nat) (disp : Displacement) :
    (disp.mapTarget f).mapTarget g = disp.mapTarget (g ∘ f) := by
  cases disp <;> rfl

theorem Displacement.mapTarget_eq_self {f : Nat → Nat} (disp : Displacement)
    (h : ∀ target ∈ disp.targets, f target = target) : disp.mapTarget f = disp := by
  cases disp with
  | value => rfl
  | branch target => rw [mapTarget, h target (List.mem_singleton_self target)]

theorem Parameter.target?_mapTarget (f : Nat → Nat) (param : Parameter) :
    (param.mapTarget f).target? = param.target?.map f := by
  cases param <;> rfl

theorem Parameter.mapTarget_mapTarget (f g : Nat → Nat) (param : Parameter) :
    (param.mapTarget f).mapTarget g = param.mapTarget (g ∘ f) := by
  cases param <;> rfl

namespace Operands

theorem targets_mapTargets (f : Nat → Nat) (operands : Operands) :
    (operands.mapTargets f).targets = operands.targets.map f := by
  cases operands with
  | bare => rfl
  | regDisp reg disp => exact disp.targets_mapTarget f
  | shortImmReg imm reg => exact imm.targets_mapTarget f
  | two16 hi lo => rfl
  | switch key parameters =>
    rw [mapTargets, targets, targets, List.filterMap_map, List.map_filterMap]
    exact List.filterMap_congr fun param _ => param.target?_mapTarget f

theorem mapTargets_mapTargets (f g : Nat → Nat) (operands : Operands) :
    (operands.mapTargets f).mapTargets g = operands.mapTargets (g ∘ f) := by
  cases operands with
  | bare => rfl
  | regDisp reg disp => simp only [mapTargets, Displacement.mapTarget_mapTarget]
  | shortImmReg imm reg => simp only [mapTargets, Displacement.mapTarget_mapTarget]
  | two16 hi lo => rfl
  | switch key parameters =>
    simp only [mapTargets, List.map_map]
    congr 2
    funext param
    exact param.mapTarget_mapTarget f g

/-- Operands whose targets stay where they are stay as they are. -/
theorem mapTargets_eq_self {f : Nat → Nat} {operands : Operands}
    (h : ∀ target ∈ operands.targets, f target = target) : operands.mapTargets f = operands := by
  cases operands with
  | bare | two16 => rfl
  | regDisp reg disp => rw [mapTargets, disp.mapTarget_eq_self h]
  | shortImmReg imm reg => rw [mapTargets, imm.mapTarget_eq_self h]
  | switch key parameters =>
    have hsame : ∀ param ∈ parameters, param.mapTarget f = id param := by
      intro param hparam
      cases param with
      | values => rfl
      | target position =>
        rw [Parameter.mapTarget, h position (List.mem_filterMap.mpr ⟨_, hparam, rfl⟩)]
        rfl
    rw [mapTargets, List.map_congr_left hsame, List.map_id]

end Operands

namespace Instruction

@[simp] theorem opcode_mapTargets (f : Nat → Nat) (insn : Instruction) :
    (insn.mapTargets f).opcode = insn.opcode := rfl

@[simp] theorem line_mapTargets (f : Nat → Nat) (insn : Instruction) :
    (insn.mapTargets f).line = insn.line := rfl

@[simp] theorem targets_mapTargets (f : Nat → Nat) (insn : Instruction) :
    (insn.mapTargets f).targets = insn.targets.map f := insn.operands.targets_mapTargets f

theorem mapTargets_eq_self {f : Nat → Nat} {insn : Instruction}
    (h : ∀ target ∈ insn.targets, f target = target) : insn.mapTargets f = insn := by
  rw [mapTargets, Operands.mapTargets_eq_self h]

/-- An instruction without what it refers to: its opcode, its line and its other operands. -/
def skeleton (insn : Instruction) : Instruction := insn.mapTargets fun _ => 0

@[simp] theorem skeleton_mapTargets (f : Nat → Nat) (insn : Instruction) :
    (insn.mapTargets f).skeleton = insn.skeleton := by
  simp only [skeleton, mapTargets, Operands.mapTargets_mapTargets, Function.comp_def]

end Instruction

/-! ### Validity -/

/-- The references of a handler that are valid in a body of `length` instructions. -/
structure Handler.Within (length : Nat) (handler : Handler) : Prop where
  start_lt : handler.start < length
  start_le_stop : handler.start ≤ handler.stop
  stop_le : handler.stop ≤ length
  entry_lt : handler.entry < length

theorem Handler.badReference?_eq_none_iff {length : Nat} {handler : Handler} :
    handler.badReference? length = none ↔ handler.Within length := by
  rw [Handler.badReference?]
  constructor
  · intro h
    split at h
    · exact absurd h (by simp)
    · split at h
      · exact absurd h (by simp)
      · split at h
        · exact absurd h (by simp)
        · exact ⟨by omega, by omega, by omega, by omega⟩
  · rintro ⟨h₁, h₂, h₃, h₄⟩
    rw [if_neg (by omega), if_neg (by omega), if_neg (by omega)]

theorem badReferences_eq_nil_iff {length : Nat} {insns : List (Instruction × Nat)} :
    badReferences length insns = [] ↔ ∀ p ∈ insns, ∀ target ∈ p.1.targets, target < length := by
  simp [badReferences, List.flatMap_eq_nil_iff]

/-- **A body is valid exactly when its references are.** -/
theorem validate_eq_ok_iff (body : Body) :
    body.validate = .ok () ↔
      (∀ insn ∈ body.instructions, ∀ target ∈ insn.targets, target < body.instructions.length) ∧
      ∀ handler ∈ body.handlers, handler.Within body.instructions.length := by
  have hinsns : badReferences body.instructions.length body.instructions.zipIdx = [] ↔
      ∀ insn ∈ body.instructions, ∀ target ∈ insn.targets, target < body.instructions.length := by
    rw [badReferences_eq_nil_iff]
    constructor
    · intro h insn hinsn
      obtain ⟨i, hi, rfl⟩ := List.getElem_of_mem hinsn
      exact h (body.instructions[i], i) (List.mem_zipIdx_iff_getElem?.mpr
        (List.getElem?_eq_getElem hi))
    · intro h p hp
      exact h p.1 (List.mem_of_getElem? (List.mem_zipIdx_iff_getElem?.mp hp))
  have hhandlers : body.handlers.findSome? (Handler.badReference? body.instructions.length) = none ↔
      ∀ handler ∈ body.handlers, handler.Within body.instructions.length := by
    rw [List.findSome?_eq_none_iff]
    exact forall₂_congr fun handler _ => Handler.badReference?_eq_none_iff
  rw [← hinsns, ← hhandlers, validate]
  cases badReferences body.instructions.length body.instructions.zipIdx with
  | cons bad rest => simp
  | nil =>
    cases body.handlers.findSome? (Handler.badReference? body.instructions.length) with
    | none => simp
    | some target => simp

end ClassImage.Body
