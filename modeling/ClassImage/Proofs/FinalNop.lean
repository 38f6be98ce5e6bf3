import ClassImage.Proofs.Lookup
import ClassImage.Proofs.NopFree

/-!
# The `nop` that cannot go

A reference to a `nop` moves to the next instruction that does something. In the run of `nop`s at
the end of a body there is none, so the last of them that is referred to has to stay: the final
`nop` (`IsFinalNop`).

* `keep_eq_some_true_iff`: an instruction stays exactly if it is no `nop` or the final one;
* `withoutNops_shape`: what is left is all that does something, in order, and behind it the final
  `nop`;
* `withoutNops_eq_self`: nothing happens to a body in which everything stays.

As long as no handler is dropped, what referred to the final `nop` refers to it afterwards as well
(`mem_references_withoutNops`), so that dropping `nop`s again changes nothing.
-/

namespace ClassImage.Body

/-- The position of a `nop` that is referred to, with only `nop`s behind it to which nothing
refers. -/
structure IsFinalNop (body : Body) (p : Nat) : Prop where
  lt_length : p < body.instructions.length
  /-- From here on there are only `nop`s. -/
  isNop_of_le : ∀ q insn, p ≤ q → body.instructions[q]? = some insn → insn.isNop = true
  mem_references : p ∈ body.references
  /-- No later instruction is referred to. -/
  le_of_mem : ∀ q ∈ body.references, q < body.instructions.length → q ≤ p

@[simp] theorem Instruction.isNop_mapTargets (f : Nat → Nat) (insn : Instruction) :
    (insn.mapTargets f).isNop = insn.isNop := rfl

variable {body : Body} {p q : Nat} {insn : Instruction}

theorem IsFinalNop.unique (hp : body.IsFinalNop p) (hq : body.IsFinalNop q) : p = q :=
  Nat.le_antisymm (hq.le_of_mem p hp.mem_references hp.lt_length)
    (hp.le_of_mem q hq.mem_references hq.lt_length)

/-! ### What stays -/

theorem keep_of_not_isNop (h : body.instructions[p]? = some insn) (hnop : insn.isNop = false) :
    body.keep[p]? = some true := by
  rw [keep_getElem? h, hnop, Bool.not_false, Bool.true_or]

/-- A `nop` stays if it is referred to and nothing stays behind it. -/
theorem keep_nop_iff (h : body.instructions[p]? = some insn) (hnop : insn.isNop = true) :
    body.keep[p]? = some true ↔ p ∈ body.references ∧ ∀ q, p < q → body.keep[q]? ≠ some true := by
  have hbehind : (body.keep.drop (p + 1)).any id = false ↔ ∀ q, p < q →
      body.keep[q]? ≠ some true := by
    rw [List.any_eq_false]
    constructor
    · intro hall q hpq hq
      have hmem : true ∈ body.keep.drop (p + 1) := by
        refine List.mem_of_getElem? (i := q - (p + 1)) ?_
        rw [List.getElem?_drop, show p + 1 + (q - (p + 1)) = q by omega, hq]
      exact hall true hmem rfl
    · rintro hall stays hmem rfl
      obtain ⟨i, hi⟩ := List.mem_iff_getElem?.mp hmem
      rw [List.getElem?_drop] at hi
      exact hall (p + 1 + i) (by omega) hi
  rw [keep_getElem? h, hnop, ← hbehind]
  simp

/-- **The `nop` that stays is the final one.** -/
theorem keep_nop_iff_isFinalNop (h : body.instructions[p]? = some insn) (hnop : insn.isNop = true) :
    body.keep[p]? = some true ↔ body.IsFinalNop p := by
  have hp : p < body.instructions.length := (List.getElem?_eq_some_iff.mp h).1
  rw [keep_nop_iff h hnop]
  constructor
  · rintro ⟨hmem, hbehind⟩
    refine ⟨hp, ?_, hmem, ?_⟩
    · intro q other hpq hother
      rcases Nat.eq_or_lt_of_le hpq with rfl | hlt
      · rwa [Option.some.inj (hother.symm.trans h)]
      · -- What does something would stay.
        cases hn : other.isNop with
        | true => rfl
        | false => exact absurd (keep_of_not_isNop hother hn) (hbehind q hlt)
    · -- Something stays at or behind every reference, and behind `p` nothing does.
      intro q hq hlt
      obtain ⟨r, hqr, hr⟩ := exists_keep_of_mem_references hlt hq
      exact Nat.le_of_not_lt fun hpq => hbehind r (by omega) hr
  · intro hfinal
    refine ⟨hfinal.mem_references, fun q hpq hq => ?_⟩
    have hlt : q < body.instructions.length := by
      rw [← length_keep]
      exact (List.getElem?_eq_some_iff.mp hq).1
    have hget := List.getElem?_eq_getElem hlt
    have hmem := ((keep_nop_iff hget (hfinal.isNop_of_le q _ (Nat.le_of_lt hpq) hget)).mp hq).1
    exact absurd (hfinal.le_of_mem q hmem hlt) (Nat.not_le.mpr hpq)

theorem keep_eq_some_true_iff (h : body.instructions[p]? = some insn) :
    body.keep[p]? = some true ↔ insn.isNop = false ∨ body.IsFinalNop p := by
  cases hnop : insn.isNop with
  | false => simp [keep_of_not_isNop h hnop]
  | true => simp [keep_nop_iff_isFinalNop h hnop]

/-- Any position but that of the final `nop` is decided by what stands there. -/
theorem keep_getElem?_of_not_isFinalNop (hp : ¬ body.IsFinalNop p) :
    body.keep[p]? = (body.instructions.map fun insn => !insn.isNop)[p]? := by
  rw [List.getElem?_map]
  cases h : body.instructions[p]? with
  | none =>
    rw [Option.map_none, List.getElem?_eq_none_iff, length_keep, ← List.getElem?_eq_none_iff, h]
  | some insn =>
    have hstays := keep_eq_some_true_iff h
    rw [keep_getElem? h] at hstays ⊢
    simp only [Option.some.injEq, hp, or_false] at hstays
    rw [Option.map_some, Option.some.injEq, Bool.eq_iff_iff, hstays, Bool.not_eq_true']

theorem keep_eq_map (hnone : ¬ ∃ p, body.IsFinalNop p) :
    body.keep = body.instructions.map fun insn => !insn.isNop :=
  List.ext_getElem? fun p => keep_getElem?_of_not_isFinalNop fun hp => hnone ⟨p, hp⟩

theorem IsFinalNop.keep_eq_set (hfinal : body.IsFinalNop p) :
    body.keep = (body.instructions.map fun insn => !insn.isNop).set p true := by
  refine List.ext_getElem? fun q => ?_
  by_cases hq : q = p
  · subst hq
    have hget := List.getElem?_eq_getElem hfinal.lt_length
    rw [(keep_eq_some_true_iff hget).mpr (Or.inr hfinal), List.getElem?_set_self]
    rw [List.length_map]
    exact hfinal.lt_length
  · rw [List.getElem?_set_ne (Ne.symm hq)]
    exact keep_getElem?_of_not_isFinalNop fun hother => hq (hother.unique hfinal)

/-! ### What is left -/

/-- **What is left of a body** is all that does something, in order, and the final `nop` behind
it. -/
theorem withoutNops_shape (body : Body) :
    (¬ ∃ p, body.IsFinalNop p) ∧ body.withoutNops.instructions =
        (body.instructions.filter fun insn => !insn.isNop).map
          (Instruction.mapTargets body.survivorsBefore) ∨
    ∃ p nop, body.IsFinalNop p ∧ body.instructions[p]? = some nop ∧ body.withoutNops.instructions =
        (body.instructions.filter fun insn => !insn.isNop).map
          (Instruction.mapTargets body.survivorsBefore) ++
          [nop.mapTargets body.survivorsBefore] := by
  by_cases hfinal : ∃ p, body.IsFinalNop p
  · obtain ⟨p, hfinal⟩ := hfinal
    obtain ⟨nop, hget⟩ : ∃ nop, body.instructions[p]? = some nop :=
      ⟨_, List.getElem?_eq_getElem hfinal.lt_length⟩
    refine Or.inr ⟨p, nop, hfinal, hget, ?_⟩
    have hnop := hfinal.isNop_of_le p nop (Nat.le_refl p) hget
    obtain ⟨front, behind, hparts, rfl⟩ := exists_append_of_getElem? hget
    -- Nothing of what comes behind the final `nop` does anything.
    have hbehind : behind.filter (fun insn => !insn.isNop) = [] := by
      refine List.filter_eq_nil_iff.mpr fun insn hinsn => ?_
      obtain ⟨i, hi⟩ := List.mem_iff_getElem?.mp hinsn
      have hnop' : insn.isNop = true := by
        refine hfinal.isNop_of_le (front.length + (i + 1)) insn (Nat.le_add_right _ _) ?_
        rw [hparts, List.getElem?_append_right (Nat.le_add_right _ _), Nat.add_sub_cancel_left,
          List.getElem?_cons_succ, hi]
      simp [hnop']
    rw [List.append_cons, List.append_assoc] at hparts
    have hkeep : body.keep = front.map (fun insn => !insn.isNop) ++
        ([nop].map (fun _ => true) ++ behind.map fun insn => !insn.isNop) := by
      rw [hfinal.keep_eq_set, hparts]
      simp
    rw [withoutNops_instructions, hkeep, hparts, List.zip_append (by simp),
      List.zip_append (by simp), List.filterMap_append, List.filterMap_append, filterMap_kept_map,
      filterMap_kept_map, filterMap_kept_map, hbehind]
    simp [hnop, hbehind]
  · refine Or.inl ⟨hfinal, ?_⟩
    rw [withoutNops_instructions, keep_eq_map hfinal, filterMap_kept_map]

/-- The final `nop` is the last instruction that is left. -/
theorem IsFinalNop.survivorsBefore_add_one (hfinal : body.IsFinalNop p) :
    body.survivorsBefore p + 1 = body.withoutNops.instructions.length := by
  have hget := List.getElem?_eq_getElem hfinal.lt_length
  have hnop := hfinal.isNop_of_le p _ (Nat.le_refl p) hget
  have hkeep := (keep_eq_some_true_iff hget).mpr (Or.inr hfinal)
  have hbehind := ((keep_nop_iff hget hnop).mp hkeep).2
  have hsucc := survivorsBefore_succ hkeep
  rw [if_pos rfl] at hsucc
  have hle : body.survivorsBefore (p + 1) ≤ body.keep.count true :=
    (List.take_sublist _ _).count_le true
  have hnot : ¬ body.survivorsBefore (p + 1) < body.keep.count true := by
    intro hlt
    obtain ⟨q, hpq, hq, -⟩ := exists_keep_of_survivorsBefore_lt hlt
    exact hbehind q (by omega) hq
  rw [length_withoutNops]
  omega

/-- A `nop` that is left is the final one. -/
theorem exists_isFinalNop {i : Nat} (hi : body.withoutNops.instructions[i]? = some insn)
    (hnop : insn.isNop = true) : ∃ p, body.IsFinalNop p ∧ body.survivorsBefore p = i := by
  have hrest : insn ∉ (body.instructions.filter fun insn => !insn.isNop).map
      (Instruction.mapTargets body.survivorsBefore) := by
    intro hmem
    obtain ⟨source, hsource, rfl⟩ := List.mem_map.mp hmem
    have hdoes : (!source.isNop) = true := (List.mem_filter.mp hsource).2
    rw [Instruction.isNop_mapTargets] at hnop
    rw [hnop] at hdoes
    exact absurd hdoes (by decide)
  rcases withoutNops_shape body with ⟨-, hshape⟩ | ⟨p, nop, hfinal, -, hshape⟩
  · rw [hshape] at hi
    exact absurd (List.mem_of_getElem? hi) hrest
  · refine ⟨p, hfinal, ?_⟩
    have hlt := (List.getElem?_eq_some_iff.mp hi).1
    have hlast := hfinal.survivorsBefore_add_one
    rw [hshape] at hi hlt hlast
    rw [List.length_append, List.length_singleton] at hlt hlast
    have hle : ((body.instructions.filter fun insn => !insn.isNop).map
        (Instruction.mapTargets body.survivorsBefore)).length ≤ i := by
      refine Nat.le_of_not_lt fun hless => hrest ?_
      rw [List.getElem?_append_left hless] at hi
      exact List.mem_of_getElem? hi
    omega

/-! ### Dropping `nop`s again -/

/-- Nothing happens to a body in which everything stays and every handler protects something. -/
theorem withoutNops_eq_self (hvalid : body.validate = .ok ())
    (hkeep : body.keep = body.instructions.map fun _ => true)
    (hhandlers : ∀ handler ∈ body.handlers, handler.start < handler.stop) :
    body.withoutNops = body := by
  obtain ⟨htargets, hwithin⟩ := (validate_eq_ok_iff body).mp hvalid
  have hsame : ∀ p ≤ body.instructions.length, body.survivorsBefore p = p := by
    intro p hp
    rw [survivorsBefore, hkeep, List.map_const', List.take_replicate, List.count_replicate_self,
      Nat.min_eq_left hp]
  have hinstructions : body.withoutNops.instructions = body.instructions := by
    rw [withoutNops_instructions, hkeep, filterMap_kept_map, List.filter_true]
    refine (List.map_congr_left fun insn hinsn => ?_).trans (List.map_id _)
    exact Instruction.mapTargets_eq_self fun target htarget =>
      hsame target (Nat.le_of_lt (htargets insn hinsn target htarget))
  have hrest : body.withoutNops.handlers = body.handlers := by
    have hmap : body.handlers.map (Handler.mapPositions body.survivorsBefore) = body.handlers := by
      refine (List.map_congr_left fun handler hhandler => ?_).trans (List.map_id _)
      obtain ⟨hstart, -, hstop, hentry⟩ := hwithin handler hhandler
      rw [Handler.mapPositions, hsame _ (Nat.le_of_lt hstart), hsame _ hstop,
        hsame _ (Nat.le_of_lt hentry)]
      rfl
    rw [withoutNops_handlers, hmap, List.filter_eq_self]
    exact fun handler hhandler => decide_eq_true (hhandlers handler hhandler)
  show ({ body with
      instructions := body.withoutNops.instructions,
      handlers := body.withoutNops.handlers } : Body) = body
  rw [hinstructions, hrest]

section Again

variable (hbare : ∀ insn ∈ body.instructions, insn.isNop = true → insn.operands = .bare)

include hbare

/-- What refers to something does something, so it stays. -/
theorem mem_withoutNops_of_mem_targets {target : Nat} (hinsn : insn ∈ body.instructions)
    (htarget : target ∈ insn.targets) :
    insn.mapTargets body.survivorsBefore ∈ body.withoutNops.instructions := by
  have hnop : insn.isNop = false := by
    refine Bool.eq_false_iff.mpr fun hnop => ?_
    rw [Instruction.targets, hbare insn hinsn hnop] at htarget
    exact absurd htarget List.not_mem_nil
  obtain ⟨i, hi⟩ := List.mem_iff_getElem?.mp hinsn
  exact List.mem_of_getElem? (withoutNops_getElem? hi (keep_of_not_isNop hi hnop))

/-- **References move along** if no handler is dropped. -/
theorem mem_references_withoutNops
    (hhandlers : body.withoutNops.handlers.length = body.handlers.length)
    (hp : p ∈ body.references) : body.survivorsBefore p ∈ body.withoutNops.references := by
  rcases List.mem_append.mp hp with hp | hp
  · obtain ⟨insn, hinsn, htarget⟩ := List.mem_flatMap.mp hp
    refine mem_references_of_mem_targets (mem_withoutNops_of_mem_targets hbare hinsn htarget) ?_
    rw [Instruction.targets_mapTargets]
    exact List.mem_map_of_mem htarget
  · obtain ⟨handler, hhandler, hposition⟩ := List.mem_flatMap.mp hp
    have hmoved : handler.mapPositions body.survivorsBefore ∈ body.withoutNops.handlers := by
      have hmem : handler.mapPositions body.survivorsBefore ∈
          body.handlers.map (Handler.mapPositions body.survivorsBefore) :=
        List.mem_map_of_mem hhandler
      rw [withoutNops_handlers] at hhandlers ⊢
      have hall := List.length_filter_eq_length_iff.mp (hhandlers.trans (List.length_map _).symm)
      exact List.mem_filter.mpr ⟨hmem, hall _ hmem⟩
    obtain ⟨hstart, hentry⟩ := mem_references_of_mem_handlers hmoved
    rcases List.mem_cons.mp hposition with rfl | hposition
    · exact hstart
    · obtain rfl := List.mem_singleton.mp hposition
      exact hentry

/-- So everything in the new body stays if `nop`s are dropped again. -/
theorem keep_withoutNops (hhandlers : body.withoutNops.handlers.length = body.handlers.length) :
    body.withoutNops.keep = body.withoutNops.instructions.map fun _ => true := by
  refine List.ext_getElem? fun i => ?_
  rw [List.getElem?_map]
  cases hi : body.withoutNops.instructions[i]? with
  | none =>
    rw [Option.map_none, List.getElem?_eq_none_iff, length_keep, ← List.getElem?_eq_none_iff, hi]
  | some insn =>
    rw [Option.map_some, keep_eq_some_true_iff hi]
    refine or_iff_not_imp_left.mpr fun hnop => ?_
    rw [Bool.not_eq_false] at hnop
    obtain ⟨p, hfinal, rfl⟩ := exists_isFinalNop hi hnop
    -- It is the last instruction, and the references to it have moved along.
    have hlast := hfinal.survivorsBefore_add_one
    refine ⟨by omega, fun q other hpq hother => ?_, mem_references_withoutNops hbare hhandlers
      hfinal.mem_references, fun q _ hq => by omega⟩
    have hlt := (List.getElem?_eq_some_iff.mp hother).1
    obtain rfl : q = body.survivorsBefore p := by omega
    rwa [Option.some.inj (hother.symm.trans hi)]

end Again

/-- **Dropping `nop`s drops all that can go.** Everything that does something is left, in order, and
a `nop` only if it is the final one, which then comes last. If no handler is dropped, dropping
`nop`s again changes nothing. -/
theorem withoutNops_minimal (body : Body) (hvalid : body.validate = .ok ())
    (hbare : ∀ insn ∈ body.instructions, insn.isNop = true → insn.operands = .bare) :
    ((¬ ∃ p, body.IsFinalNop p) ∧ body.withoutNops.instructions =
        (body.instructions.filter fun insn => !insn.isNop).map
          (Instruction.mapTargets body.survivorsBefore) ∨
      ∃ p nop, body.IsFinalNop p ∧ body.instructions[p]? = some nop ∧
        body.withoutNops.instructions =
        (body.instructions.filter fun insn => !insn.isNop).map
          (Instruction.mapTargets body.survivorsBefore) ++ [nop]) ∧
    (body.withoutNops.maxStack = body.maxStack ∧ body.withoutNops.maxLocals = body.maxLocals) ∧
    (body.withoutNops.handlers.length = body.handlers.length →
      body.withoutNops.withoutNops = body.withoutNops) := by
  refine ⟨?_, ⟨rfl, rfl⟩, fun hhandlers => ?_⟩
  · rcases withoutNops_shape body with hshape | ⟨p, nop, hfinal, hget, hshape⟩
    · exact Or.inl hshape
    · refine Or.inr ⟨p, nop, hfinal, hget, ?_⟩
      have hnop := hfinal.isNop_of_le p nop (Nat.le_refl p) hget
      have hsame : nop.mapTargets body.survivorsBefore = nop := by
        refine Instruction.mapTargets_eq_self fun target htarget => ?_
        rw [Instruction.targets, hbare nop (List.mem_of_getElem? hget) hnop] at htarget
        exact absurd htarget List.not_mem_nil
      rw [hshape, hsame]
  · refine withoutNops_eq_self (validate_withoutNops hvalid) (keep_withoutNops hbare hhandlers) ?_
    intro handler hhandler
    rw [withoutNops_handlers] at hhandler
    exact of_decide_eq_true (List.mem_filter.mp hhandler).2

/-- A body that jumps to the second of the three `nop`s at its end, from a range with a handler at
the first of them. -/
def finalNopSample : Body where
  instructions := [⟨.plain .nop, 1, .bare⟩, ⟨.goto, 2, .regDisp .pc (.branch 4)⟩,
    ⟨.plain .returnVoid, 3, .bare⟩, ⟨.plain .nop, 4, .bare⟩, ⟨.plain .nop, 5, .bare⟩,
    ⟨.plain .nop, 6, .bare⟩]
  handlers := [⟨1, 3, 3, none⟩]
  maxStack := 2
  maxLocals := 1

/-- The jump and the return are left, and the `nop` of line 5 behind them. -/
theorem finalNopSample_minimal : finalNopSample.validate = .ok () ∧
    finalNopSample.withoutNops.instructions =
      [⟨.goto, 2, .regDisp .pc (.branch 2)⟩, ⟨.plain .returnVoid, 3, .bare⟩,
        ⟨.plain .nop, 5, .bare⟩] ∧
    (∃ p, finalNopSample.IsFinalNop p ∧ finalNopSample.instructions[p]? =
      some ⟨.plain .nop, 5, .bare⟩) ∧
    finalNopSample.withoutNops.handlers = [⟨0, 2, 2, none⟩] ∧
    finalNopSample.withoutNops.withoutNops = finalNopSample.withoutNops := by
  have hvalid : finalNopSample.validate = .ok () := by decide +kernel
  have hleft : finalNopSample.withoutNops.instructions =
      [⟨.goto, 2, .regDisp .pc (.branch 2)⟩, ⟨.plain .returnVoid, 3, .bare⟩,
        ⟨.plain .nop, 5, .bare⟩] := by
    decide +kernel
  obtain ⟨hshape, -, hagain⟩ := withoutNops_minimal finalNopSample hvalid (by decide +kernel)
  refine ⟨hvalid, hleft, ?_, by decide +kernel, hagain (by decide +kernel)⟩
  rcases hshape with ⟨-, hshape⟩ | ⟨p, nop, hfinal, hget, hshape⟩
  · exact absurd (congrArg List.length hshape) (by decide +kernel)
  · have hlast := congrArg List.getLast? hshape
    rw [hleft, List.getLast?_concat] at hlast
    obtain rfl := Option.some.inj hlast
    exact ⟨p, hfinal, hget⟩

end ClassImage.Body
