import ClassImage.Body.NopFree
import ClassImage.Proofs.Body

/-!
# What is left of a body without its `nop`s, and where it moves

The program decides from the back which instructions stay and counts from the front where they go.
Both come out as plain facts about positions:

* `keep_getElem?`: an instruction stays if it is no `nop`, or if it is referred to and nothing
  behind it stays;
* `rank_ranks`: a position moves to the number of instructions that stay before it,
  `survivorsBefore`;
* `withoutNops_getElem?`: an instruction that stays is found where its position moves.

From this the references of the new body are seen to be valid (`validate_withoutNops`): behind a
position that is referred to, something always stays.
-/

namespace ClassImage.Body

/-! ### Marked positions -/

theorem size_foldl_marks (positions : List Nat) (flags : Array Bool) :
    (positions.foldl (fun flags position => flags.setIfInBounds position true) flags).size =
      flags.size := by
  induction positions generalizing flags with
  | nil => rfl
  | cons position positions ih => rw [List.foldl_cons, ih, Array.size_setIfInBounds]

theorem getElem?_foldl_marks (positions : List Nat) (flags : Array Bool) {p : Nat}
    (hp : p < flags.size) :
    (positions.foldl (fun flags position => flags.setIfInBounds position true) flags)[p]? =
      some (flags[p] || decide (p ∈ positions)) := by
  induction positions generalizing flags with
  | nil => simp [hp]
  | cons position positions ih =>
    have hp' : p < (flags.setIfInBounds position true).size := by rwa [Array.size_setIfInBounds]
    rw [List.foldl_cons, ih _ hp']
    by_cases h : p = position
    · subst h
      simp
    · have hset : (flags.setIfInBounds position true)[p] = flags[p] :=
        Array.getElem_setIfInBounds_ne hp (Ne.symm h)
      simp [h, hset]

theorem size_marks (length : Nat) (positions : List Nat) :
    (marks length positions).size = length := by
  rw [marks, size_foldl_marks, Array.size_replicate]

theorem getElem?_marks {length p : Nat} (positions : List Nat) (hp : p < length) :
    (marks length positions)[p]? = some (decide (p ∈ positions)) := by
  rw [marks, getElem?_foldl_marks _ _ (by rwa [Array.size_replicate])]
  simp

/-! ### What stays -/

/-- The decisions of `keepOnto`, from the front: an instruction stays if it is no `nop`, or if it is
referred to and nothing behind it stays. -/
def staying : List (Instruction × Bool) → List Bool
  | [] => []
  | (insn, referenced) :: rest =>
    (!insn.isNop || (referenced && !(staying rest).any id)) :: staying rest

theorem length_staying (insns : List (Instruction × Bool)) :
    (staying insns).length = insns.length := by
  induction insns with
  | nil => rfl
  | cons p rest ih => rw [staying, List.length_cons, List.length_cons, ih]

/-- `keepOnto` walks from the back, with what it has decided in front of it. -/
theorem keepOnto_staying (later : List (Instruction × Bool)) : ∀ before : List (Instruction × Bool),
    keepOnto ((staying later).any id) (staying later) before =
      staying (before.reverse ++ later) := by
  intro before
  induction before generalizing later with
  | nil => rfl
  | cons p before ih =>
    obtain ⟨insn, referenced⟩ := p
    rw [List.reverse_cons, List.append_assoc, List.singleton_append, ← ih, keepOnto]
    congr 1
    simp [staying, Bool.or_comm]

theorem keep_eq_staying (body : Body) :
    body.keep = staying (body.instructions.zip
      (marks body.instructions.length body.references).toList) := by
  have h := keepOnto_staying [] (body.instructions.zip
    (marks body.instructions.length body.references).toList).reverse
  rwa [List.reverse_reverse, List.append_nil] at h

theorem length_keep (body : Body) : body.keep.length = body.instructions.length := by
  rw [keep_eq_staying, length_staying, List.length_zip, Array.length_toList,
    size_marks, Nat.min_self]

theorem getElem?_staying (insns : List (Instruction × Bool)) (p : Nat) :
    (staying insns)[p]? = insns[p]?.map fun (insn, referenced) =>
      !insn.isNop || (referenced && !((staying insns).drop (p + 1)).any id) := by
  induction insns generalizing p with
  | nil => rfl
  | cons a rest ih =>
    obtain ⟨insn, referenced⟩ := a
    cases p with
    | zero => simp [staying]
    | succ p => simpa [staying] using ih p

/-- **Which instructions stay**: those that do something, and a `nop` that is referred to when
nothing behind it stays. -/
theorem keep_getElem? {body : Body} {p : Nat} {insn : Instruction}
    (h : body.instructions[p]? = some insn) :
    body.keep[p]? = some (!insn.isNop ||
      (decide (p ∈ body.references) && !(body.keep.drop (p + 1)).any id)) := by
  have hp : p < body.instructions.length := (List.getElem?_eq_some_iff.mp h).1
  have hzip : (body.instructions.zip (marks body.instructions.length body.references).toList)[p]? =
      some (insn, decide (p ∈ body.references)) := by
    rw [List.getElem?_zip_eq_some]
    exact ⟨h, by rw [Array.getElem?_toList, getElem?_marks _ hp]⟩
  have hstay := getElem?_staying
    (body.instructions.zip (marks body.instructions.length body.references).toList) p
  rwa [← keep_eq_staying, hzip] at hstay

/-- Only a `nop` is dropped. -/
theorem isNop_of_keep_eq_false {body : Body} {p : Nat} {insn : Instruction}
    (h : body.instructions[p]? = some insn) (hk : body.keep[p]? = some false) :
    insn.isNop = true := by
  rw [keep_getElem? h] at hk
  have := Option.some.inj hk
  cases hn : insn.isNop with
  | true => rfl
  | false => rw [hn] at this; simp at this

/-- **Something stays at or behind every position that is referred to.** -/
theorem exists_keep_of_mem_references {body : Body} {p : Nat} (hp : p < body.instructions.length)
    (hr : p ∈ body.references) : ∃ q, p ≤ q ∧ body.keep[q]? = some true := by
  have hk := keep_getElem? (List.getElem?_eq_getElem hp)
  by_cases hany : (body.keep.drop (p + 1)).any id = true
  · -- something behind `p` stays
    obtain ⟨b, hb, hbt⟩ := List.any_eq_true.mp hany
    obtain ⟨i, hi, rfl⟩ := List.getElem_of_mem hb
    refine ⟨p + 1 + i, by omega, ?_⟩
    have hget := List.getElem?_eq_getElem hi
    rw [List.getElem?_drop] at hget
    rw [hget]
    exact congrArg some hbt
  · -- nothing behind `p` stays, so `p` itself does
    refine ⟨p, Nat.le_refl p, ?_⟩
    rw [hk, Bool.eq_false_iff.mpr hany]
    simp [hr]

/-! ### Where positions move -/

/-- The number of instructions that stay before a position. -/
def survivorsBefore (body : Body) (position : Nat) : Nat := (body.keep.take position).count true

theorem foldl_ranks (kept : List Bool) (table : Array Nat) (count : Nat) :
    kept.foldl (fun (table, count) stays => (table.push count, if stays then count + 1 else count))
      (table, count) =
    (table ++ (List.range kept.length).map (fun i => count + (kept.take i).count true),
      count + kept.count true) := by
  induction kept generalizing table count with
  | nil => simp
  | cons stays kept ih =>
    rw [List.foldl_cons, ih]
    apply Prod.ext
    · apply Array.toList_inj.mp
      rw [List.length_cons, List.range_succ_eq_map]
      cases stays with
      | false => simp [Function.comp_def]
      | true => simp [Function.comp_def]; omega
    · cases stays with
      | false => simp
      | true => simp; omega

theorem ranks_toList (kept : List Bool) :
    (ranks kept).toList = (List.range (kept.length + 1)).map fun i => (kept.take i).count true := by
  have h := foldl_ranks kept #[] 0
  simp only [Nat.zero_add] at h
  simp only [ranks, h, List.range_succ, List.map_append, List.map_cons, List.map_nil,
    List.take_length]
  simp

/-- The table of ranks counts what stays before a position. -/
theorem rank_ranks (kept : List Bool) (p : Nat) :
    rank (ranks kept) p = (kept.take p).count true := by
  have hsize : (ranks kept).size = kept.length + 1 := by
    rw [← Array.length_toList, ranks_toList, List.length_map, List.length_range]
  have hmin : min p kept.length < kept.length + 1 := by omega
  rw [rank, hsize, Nat.add_sub_cancel, ← Array.getElem?_toList, ranks_toList, List.getElem?_map,
    List.getElem?_range hmin, Option.map_some, Option.getD_some]
  congr 1
  rw [← List.take_eq_take_min]

theorem survivorsBefore_mono (body : Body) {p q : Nat} (h : p ≤ q) :
    body.survivorsBefore p ≤ body.survivorsBefore q :=
  ((List.take_prefix_take_left h).sublist).count_le true

theorem survivorsBefore_succ {body : Body} {p : Nat} {stays : Bool}
    (h : body.keep[p]? = some stays) :
    body.survivorsBefore (p + 1) = body.survivorsBefore p + if stays then 1 else 0 := by
  rw [survivorsBefore, List.take_add_one, h, List.count_append]
  cases stays <;> rfl

theorem survivorsBefore_of_length_le {body : Body} {p : Nat} (h : body.instructions.length ≤ p) :
    body.survivorsBefore p = body.keep.count true := by
  rw [survivorsBefore, List.take_of_length_le (by rwa [length_keep])]

/-- A position with something that stays at or behind it moves before the end. -/
theorem survivorsBefore_lt {body : Body} {p q : Nat} (hpq : p ≤ q)
    (hk : body.keep[q]? = some true) :
    body.survivorsBefore p < body.keep.count true := by
  have h₁ := body.survivorsBefore_mono hpq
  have h₂ := survivorsBefore_succ hk
  have h₃ : body.survivorsBefore (q + 1) ≤ body.keep.count true :=
    (List.take_sublist _ _).count_le true
  simp only [if_true] at h₂
  omega

/-- A position that moves before the end has something that stays at or behind it, which moves to
the same place, and only `nop`s that go are between the two. -/
theorem exists_keep_of_survivorsBefore_lt {body : Body} {p : Nat}
    (h : body.survivorsBefore p < body.keep.count true) :
    ∃ q, p ≤ q ∧ body.keep[q]? = some true ∧ (∀ i, p ≤ i → i < q → body.keep[i]? = some false) ∧
      body.survivorsBefore q = body.survivorsBefore p := by
  induction hd : body.keep.length - p generalizing p with
  | zero =>
    rw [survivorsBefore_of_length_le (by rw [← length_keep]; omega)] at h
    exact absurd h (Nat.lt_irrefl _)
  | succ n ih =>
    have hp : p < body.keep.length := by omega
    have hget := List.getElem?_eq_getElem hp
    cases hk : body.keep[p] with
    | true =>
      rw [hk] at hget
      exact ⟨p, Nat.le_refl p, hget, fun i h₁ h₂ => absurd h₁ (by omega), rfl⟩
    | false =>
      rw [hk] at hget
      have hsucc := survivorsBefore_succ hget
      simp only [Bool.false_eq_true, if_false, Nat.add_zero] at hsucc
      obtain ⟨q, hpq, hq, hbetween, hrank⟩ := ih (p := p + 1) (by rwa [hsucc]) (by omega)
      refine ⟨q, by omega, hq, ?_, by rw [hrank, hsucc]⟩
      intro i h₁ h₂
      by_cases hi : i = p
      · rwa [hi]
      · exact hbetween i (by omega) h₂

/-! ### The body that is left -/

theorem length_filterMap_kept {α β : Type} (f : α → β) : ∀ (as : List α) (kept : List Bool),
    as.length = kept.length → ((as.zip kept).filterMap fun (a, stays) =>
      if stays then some (f a) else none).length = kept.count true := by
  intro as
  induction as with
  | nil =>
    intro kept h
    rw [List.length_eq_zero_iff.mp h.symm]
    rfl
  | cons a as ih =>
    intro kept h
    cases kept with
    | nil => exact absurd h (by simp)
    | cons stays kept =>
      have := ih kept (by simpa using h)
      cases stays <;> simp [this]

theorem getElem?_filterMap_kept {α β : Type} (f : α → β) :
    ∀ (as : List α) (kept : List Bool) (p : Nat) (a : α), as[p]? = some a → kept[p]? = some true →
    ((as.zip kept).filterMap fun (a, stays) => if stays then some (f a) else none)[
      (kept.take p).count true]? = some (f a) := by
  intro as
  induction as with
  | nil => intro kept p a h _; exact absurd h (by simp)
  | cons b as ih =>
    intro kept p a ha hk
    cases kept with
    | nil => exact absurd hk (by simp)
    | cons stays kept =>
      cases p with
      | zero =>
        obtain rfl : b = a := by simpa using ha
        obtain rfl : stays = true := by simpa using hk
        simp
      | succ p =>
        have := ih kept p a (by simpa using ha) (by simpa using hk)
        cases stays <;> simpa using this

/-- If a property decides what stays, what stays is what has it. -/
theorem filterMap_kept_map {α β : Type} (f : α → β) (p : α → Bool) (as : List α) :
    ((as.zip (as.map p)).filterMap fun (a, stays) => if stays then some (f a) else none) =
      (as.filter p).map f := by
  induction as with
  | nil => rfl
  | cons a as ih => cases h : p a <;> simp [h, ih]

theorem withoutNops_instructions (body : Body) : body.withoutNops.instructions =
    (body.instructions.zip body.keep).filterMap fun (insn, stays) =>
      if stays then some (insn.mapTargets body.survivorsBefore) else none := by
  have h : rank (ranks body.keep) = body.survivorsBefore := funext (rank_ranks body.keep)
  rw [withoutNops, h]

theorem withoutNops_handlers (body : Body) : body.withoutNops.handlers =
    (body.handlers.map (Handler.mapPositions body.survivorsBefore)).filter fun handler =>
      handler.start < handler.stop := by
  have h : rank (ranks body.keep) = body.survivorsBefore := funext (rank_ranks body.keep)
  rw [withoutNops, h]

theorem length_withoutNops (body : Body) :
    body.withoutNops.instructions.length = body.keep.count true := by
  rw [withoutNops_instructions]
  exact length_filterMap_kept _ _ _ (length_keep body).symm

/-- **What stays is found where its position moves**, with its references moved alike. -/
theorem withoutNops_getElem? {body : Body} {p : Nat} {insn : Instruction}
    (h : body.instructions[p]? = some insn) (hk : body.keep[p]? = some true) :
    body.withoutNops.instructions[body.survivorsBefore p]? =
      some (insn.mapTargets body.survivorsBefore) := by
  rw [withoutNops_instructions]
  exact getElem?_filterMap_kept _ _ _ p insn h hk

/-- Every instruction that is left comes from one that stays. -/
theorem exists_of_mem_withoutNops {body : Body} {insn : Instruction}
    (h : insn ∈ body.withoutNops.instructions) :
    ∃ source ∈ body.instructions, insn = source.mapTargets body.survivorsBefore := by
  rw [withoutNops_instructions, List.mem_filterMap] at h
  obtain ⟨⟨source, stays⟩, hmem, hsome⟩ := h
  refine ⟨source, (List.of_mem_zip hmem).1, ?_⟩
  cases stays with
  | false => exact absurd hsome (by simp)
  | true => exact (by simpa using hsome : _ = insn).symm

theorem survivorsBefore_lt_of_mem_references {body : Body} {p : Nat}
    (hp : p < body.instructions.length) (hr : p ∈ body.references) :
    body.survivorsBefore p < body.withoutNops.instructions.length := by
  obtain ⟨q, hpq, hk⟩ := exists_keep_of_mem_references hp hr
  rw [length_withoutNops]
  exact survivorsBefore_lt hpq hk

theorem mem_references_of_mem_targets {body : Body} {insn : Instruction} {target : Nat}
    (hinsn : insn ∈ body.instructions) (ht : target ∈ insn.targets) : target ∈ body.references :=
  List.mem_append.mpr (.inl (List.mem_flatMap.mpr ⟨insn, hinsn, ht⟩))

theorem mem_references_of_mem_handlers {body : Body} {handler : Handler}
    (h : handler ∈ body.handlers) :
    handler.start ∈ body.references ∧ handler.entry ∈ body.references :=
  ⟨List.mem_append.mpr (.inr (List.mem_flatMap.mpr ⟨handler, h, by simp⟩)),
    List.mem_append.mpr (.inr (List.mem_flatMap.mpr ⟨handler, h, by simp⟩))⟩

/-- **A valid body stays valid.** -/
theorem validate_withoutNops {body : Body} (h : body.validate = .ok ()) :
    body.withoutNops.validate = .ok () := by
  obtain ⟨hinsns, hhandlers⟩ := (validate_eq_ok_iff body).mp h
  refine (validate_eq_ok_iff _).mpr ⟨?_, ?_⟩
  · intro insn hinsn target ht
    obtain ⟨source, hsource, rfl⟩ := exists_of_mem_withoutNops hinsn
    rw [Instruction.targets_mapTargets, List.mem_map] at ht
    obtain ⟨target, ht, rfl⟩ := ht
    exact survivorsBefore_lt_of_mem_references (hinsns source hsource target ht)
      (mem_references_of_mem_targets hsource ht)
  · intro handler hhandler
    rw [withoutNops_handlers, List.mem_filter, List.mem_map] at hhandler
    obtain ⟨⟨source, hsource, rfl⟩, hlt⟩ := hhandler
    have hwithin := hhandlers source hsource
    have hrefs := mem_references_of_mem_handlers hsource
    have hlt : body.survivorsBefore source.start < body.survivorsBefore source.stop :=
      of_decide_eq_true hlt
    have hstop : body.survivorsBefore source.stop ≤ body.withoutNops.instructions.length := by
      rw [length_withoutNops]
      exact (List.take_sublist _ _).count_le true
    exact {
      start_lt := survivorsBefore_lt_of_mem_references hwithin.start_lt hrefs.1
      start_le_stop := Nat.le_of_lt hlt
      stop_le := hstop
      entry_lt := survivorsBefore_lt_of_mem_references hwithin.entry_lt hrefs.2 }

end ClassImage.Body
