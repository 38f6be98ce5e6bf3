import ClassImage.Proofs.Placement

/-!
# Exceptions are caught where they were

A range of protected code is given three times over: by offsets in the class file, by positions in
the body, and by offsets in the image. Offsets increase with positions up to the end of the code, so
an instruction lies in a range in one way exactly if it does in the others
(`KeepsHandler.covers_eq`, `covers_of_place_eq`), and dropping `nop`s moves ranges along with what
is left in them (`finished_handlers_covering`). So at each instruction that is left, the handlers
that protect it are those of the class file, in order, with their entries moved to where the
operations went (`KeepsCode.covered`).
-/

namespace ClassImage

/-! ### Ranges -/

/-- Whether a place lies in a range, of which the end is not part. -/
def inRange (start stop place : Nat) : Bool := decide (start ≤ place) && decide (place < stop)

theorem lt_iff_of_getElem? {places : List Nat} (h : places.Pairwise (· < ·)) {i j a b : Nat}
    (hi : places[i]? = some a) (hj : places[j]? = some b) : a < b ↔ i < j := by
  obtain ⟨hi', rfl⟩ := List.getElem?_eq_some_iff.mp hi
  obtain ⟨hj', rfl⟩ := List.getElem?_eq_some_iff.mp hj
  have hless := List.pairwise_iff_getElem.mp h
  constructor
  · intro hlt
    by_contra hle
    rcases Nat.lt_or_eq_of_le (Nat.le_of_not_lt hle) with hji | rfl
    · exact absurd (hless j i hj' hi' hji) (Nat.lt_asymm hlt)
    · exact absurd hlt (Nat.lt_irrefl _)
  · exact hless i j hi' hj'

/-- **A range of offsets is a range of positions**, if offsets increase with positions. -/
theorem inRange_of_getElem? {places : List Nat} (h : places.Pairwise (· < ·))
    {start stop position a b c : Nat} (hstart : places[start]? = some a)
    (hstop : places[stop]? = some b) (hposition : places[position]? = some c) :
    inRange a b c = inRange start stop position := by
  have hlow := lt_iff_of_getElem? h hposition hstart
  have hhigh := lt_iff_of_getElem? h hposition hstop
  simp only [inRange, ← Nat.not_lt, hlow, hhigh]

/-- Related lists stay related when the same is left out of them. -/
theorem forall₂_filter {α β : Type} {r : α → β → Prop} {p : α → Bool} {q : β → Bool} {as : List α}
    {bs : List β} (h : List.Forall₂ r as bs) (hpq : ∀ a b, r a b → p a = q b) :
    List.Forall₂ r (as.filter p) (bs.filter q) := by
  refine List.rel_filter (fun a b hr => ?_) h
  show p a = true ↔ q b = true
  rw [hpq a b hr]

/-- Whether an entry of an exception table protects the operation at an offset. -/
def ClassFile.ExceptionEntry.covers (entry : ClassFile.ExceptionEntry) (offset : Nat) : Bool :=
  inRange entry.start.toNat entry.stop.toNat offset

/-- Whether a handler of an image protects the instruction at an offset. -/
def Image.Handler.covers (handler : Image.Handler) (offset : Nat) : Bool :=
  inRange handler.start.toNat handler.stop.toNat offset

namespace Conversion

open ClassFile (ConstantPool ExceptionEntry)
open Bytecode (Decoded)
open Image (Record)

theorem KeepsHandler.covers_eq {constants : ConstantPool} {starts : List Nat} {length : Nat}
    {source : ExceptionEntry} {handler : Body.Handler} {T : Tables}
    (h : KeepsHandler constants starts length source handler T)
    (hincreasing : (starts ++ [length]).Pairwise (· < ·)) {p offset : Nat}
    (hp : starts[p]? = some offset) :
    source.covers offset = handler.covers p := by
  have hplace : ∀ {i a : Nat}, starts[i]? = some a → (starts ++ [length])[i]? = some a := by
    intro i a hi
    rw [List.getElem?_append_left (List.getElem?_eq_some_iff.mp hi).1, hi]
  exact inRange_of_getElem? hincreasing (hplace h.start) h.stop.getElem? (hplace hp)

theorem covers_of_place_eq {body : Body} {handler : Body.Handler} {placed : Image.Handler}
    (hstop : body.stop ≤ 0xFFFF) (h : handler.place body.layout = .ok placed) {p offset : Nat}
    (hp : body.starts[p]? = some offset) : placed.covers offset = handler.covers p := by
  obtain ⟨hstart, hend, -, -⟩ := Body.Handler.place_ok hstop h
  rw [Body.offsetOf?_eq_append] at hstart hend
  refine inRange_of_getElem? body.pairwise_starts_stop hstart hend ?_
  rw [List.getElem?_append_left (List.getElem?_eq_some_iff.mp hp).1, hp]

/-- **The handlers that protect an instruction are moved along with it.** -/
theorem finished_handlers_covering {settings : Settings} {lowered : Body}
    (hvalid : lowered.validate = .ok ()) {p : Nat}
    (hkept : (laidOut settings lowered)[p]? = some true) :
    (finished settings lowered).handlers.filter (fun handler =>
      handler.covers (movedTo settings lowered p)) =
      (lowered.handlers.filter fun handler => handler.covers p).map
        (Body.Handler.mapPositions (movedTo settings lowered)) := by
  cases hnops : settings.dropNops with
  | true =>
    rw [laidOut_of_drop hnops] at hkept
    rw [finished_of_drop hnops, movedTo_of_drop hnops, Body.withoutNops_handlers,
      List.filter_filter, List.filter_map]
    congr 1
    apply List.filter_congr
    intro handler _
    rw [Function.comp_apply, Bool.and_comm]
    exact Body.covers_mapPositions_of_nonempty hkept handler
  | false =>
    have hlt : p < lowered.instructions.length := by
      rw [← length_laidOut settings lowered]
      exact (List.getElem?_eq_some_iff.mp hkept).1
    have hsame : ∀ handler ∈ lowered.handlers.filter fun handler => handler.covers p,
        handler.mapPositions (movedTo settings lowered) = id handler := by
      intro handler hmem
      obtain ⟨hstart, -, hstop, hentry⟩ :=
        ((Body.validate_eq_ok_iff lowered).mp hvalid).2 handler (List.mem_of_mem_filter hmem)
      rw [Body.Handler.mapPositions, movedTo_of_whole hnops (Nat.le_of_lt hstart),
        movedTo_of_whole hnops hstop, movedTo_of_whole hnops (Nat.le_of_lt hentry)]
      rfl
    rw [finished_of_whole hnops, movedTo_of_whole hnops (Nat.le_of_lt hlt),
      List.map_congr_left hsame, List.map_id]

/-! ### Methods that catch the same -/

/-- A handler does with an exception what an entry of an exception table does: it goes on where the
operation went that the entry goes on with, and it catches the same class. -/
structure HandlesAlike (constants : ConstantPool) (placement : Placement) (T : Tables)
    (source : ExceptionEntry) (handler : Image.Handler) : Prop where
  entry : placement.landing source.entry.toNat = some handler.entry.toNat
  catchType : Catches constants source.catchType T handler.catchType

section Code

variable {settings : Settings} {constants : ConstantPool} {code : ClassFile.Code}
  {decoded : List Decoded} {lowered : Body} {groups : List (List Record)} {assembly : Body.Assembly}
  {T : Tables}

/-- A handler that was moved and laid out does what the entry does that it was made from. -/
theorem KeepsCode.handlesAlike
    (h : KeepsCode settings constants code decoded lowered groups assembly T)
    {source : ExceptionEntry} {handler : Body.Handler} {placed : Image.Handler}
    (hkeeps : KeepsHandler constants (decoded.map Decoded.offset)
      code.bytes.length source handler T)
    (hmem : handler.mapPositions (movedTo settings lowered) ∈ (finished settings lowered).handlers)
    (hplace : (handler.mapPositions (movedTo settings lowered)).place
      (finished settings lowered).layout = .ok placed) :
    HandlesAlike constants (placementOf settings decoded lowered) T source placed := by
  have hordered := (List.pairwise_append.mp h.lowers.offsets).1
  obtain ⟨-, -, hentry, hcatch⟩ := Body.Handler.place_ok h.assembles.stop_le hplace
  have hwithin := ((Body.validate_eq_ok_iff _).mp (validate_finished h.lowers.valid)).2 _ hmem
  have hstart := Body.offsetOf?_of_lt hwithin.entry_lt hentry
  refine ⟨?_, ?_⟩
  · rw [placementOf, Placement.landing_zip_spread (h.lowers.length_offsets settings)
      (length_starts_finished settings lowered) hordered hkeeps.entry]
    exact hstart
  · rw [hcatch]
    exact hkeeps.catchType

/-- **An instruction that is left is protected as it was.** -/
theorem KeepsCode.covered (h : KeepsCode settings constants code decoded lowered groups assembly T)
    {offset start : Nat} (hplaced : (offset, some start) ∈ placementOf settings decoded lowered) :
    List.Forall₂ (HandlesAlike constants (placementOf settings decoded lowered) T)
      (code.exceptions.filter fun entry => entry.covers offset)
      (assembly.handlers.filter fun handler => handler.covers start) := by
  obtain ⟨p, hp⟩ := List.mem_iff_getElem?.mp hplaced
  obtain ⟨hoffset, hkept, hstart⟩ := laidOut_of_getElem?_placementOf hp
  have hsources := forall₂_filter h.lowers.handlers fun _ _ hkeeps =>
    hkeeps.covers_eq h.lowers.offsets hoffset
  have hhandlers := forall₂_filter h.assembles.handlers fun _ _ hplace =>
    (covers_of_place_eq h.assembles.stop_le hplace hstart).symm
  have hmoved := finished_handlers_covering h.lowers.valid hkept
  -- The handlers that cover what is left are those of the lowered body, moved.
  have hmoves := hhandlers
  rw [hmoved, List.forall₂_map_left_iff] at hmoves
  refine forall₂_of_getElem? (hsources.length_eq.trans hmoves.length_eq) ?_
  intro i entry handler hentry hhandler
  obtain ⟨middle, hmiddle, hkeeps⟩ := exists_getElem?_of_forall₂ hsources hentry
  obtain ⟨handler', hhandler', hplace⟩ := exists_getElem?_of_forall₂ hmoves hmiddle
  obtain rfl : handler' = handler := Option.some.inj (hhandler'.symm.trans hhandler)
  refine h.handlesAlike hkeeps ?_ hplace
  refine List.mem_of_mem_filter (p := fun handler => handler.covers (movedTo settings lowered p)) ?_
  rw [hmoved]
  exact List.mem_map_of_mem (List.mem_of_getElem? hmiddle)

end Code

/-- A method of an image catches exceptions where the method of the class file does. -/
inductive SameCoverage (settings : Settings) (constants : ConstantPool) (source : ClassFile.Method)
    (method : Image.Method) (T : Tables) : Prop where
  | bodiless (hcode : source.code constants = .ok none) (hhandlers : method.handlers = [])
  | code {code : ClassFile.Code} {decoded : List Decoded} {placement : Placement}
    (hcode : source.code constants = .ok (some code)) (hdecodes : Decodes constants code decoded)
    (hplaced : Placed settings constants decoded method.code placement T)
    (hcovered : ∀ offset start, (offset, some start) ∈ placement →
      List.Forall₂ (HandlesAlike constants placement T)
        (code.exceptions.filter fun entry => entry.covers offset)
        (method.handlers.filter fun handler => handler.covers start))
    (hwhole : settings.dropNops = false → List.Forall₂ (fun entry handler =>
      SameHandler constants (decoded.map Decoded.offset)
        (placement.filterMap Prod.snd) code.bytes.length method.code.length entry handler T)
          code.exceptions method.handlers)

/-- A method of an image has the name and the descriptor of a method of the class file, and catches
exceptions where that one does. -/
structure ProtectsAlike (settings : Settings) (constants : ConstantPool) (source : ClassFile.Method)
    (method : Image.Method) (T : Tables) : Prop where
  name : KeepsText constants source.name method.name T
  descriptor : KeepsText constants source.descriptor method.descriptor T
  coverage : SameCoverage settings constants source method T

theorem KeepsMethod.sameCoverage {settings : Settings} {constants : ConstantPool}
    {source : ClassFile.Method} {method : Image.Method} {T : Tables}
    (h : KeepsMethod settings constants source method T) :
    SameCoverage settings constants source method T := by
  obtain ⟨code, hcode, hbody⟩ := h.body
  cases hbody with
  | bodiless _ _ hhandlers => exact .bodiless hcode hhandlers
  | @code code decoded lowered groups assembly hkeeps hbytes _ hhandlers =>
    have hplaced : Placed settings constants decoded method.code
        (placementOf settings decoded lowered) T := by
      rw [hbytes]
      exact hkeeps.placed
    refine .code hcode hkeeps.lowers.decodes hplaced ?_ ?_
    · rw [hhandlers]
      exact fun offset start hplaced => hkeeps.covered hplaced
    · intro hnops
      rw [hbytes, hhandlers, hkeeps.lowers.filterMap_placementOf settings, finished_of_whole hnops]
      exact hkeeps.sameHandlers hnops

/-- **Exceptions are caught where they were.** Whether instructions are dropped or not, each
instruction of a converted method is protected by the handlers that protect its operation in the
class file, in the same order; and if none are dropped, there is one handler for each entry of the
exception table. -/
theorem convertClass_preserves_coverage {settings : Settings} {symbols : SymbolTable}
    (hsymbols : Reachable symbols) {bytes written : Bytes} {diagnostics : List Diagnostic}
    (h : (convertClass settings symbols bytes).result = .ok (written, diagnostics)) :
    ∃ classFile image outcomes, ClassFile.ofBytes bytes = .ok classFile ∧
      Image.ofBytes written = .ok image ∧ image.methods = outcomes.reduceOption ∧
      List.Forall₂ (fun source outcome => ∀ method, outcome = some method →
        ProtectsAlike settings classFile.constants source method
          (tablesOf image (convertClass settings symbols bytes).symbols))
            classFile.methods outcomes := by
  obtain ⟨-, image, classFile, work, -, hread, hfile, hcompleted, hle⟩ :=
    exists_completed hsymbols h
  obtain ⟨outcomes, hkeeps⟩ := hcompleted.keeps
  have hclass := hkeeps _ hle
  refine ⟨classFile, image, outcomes, hfile, Image.ofBytes_of_read hread, hclass.methods, ?_⟩
  refine hclass.outcomes.imp fun source outcome hmethod method hmem => ?_
  have hkept := hmethod method hmem
  exact ⟨hkept.name, hkept.descriptor, hkept.sameCoverage⟩

/-- The handler of the sample starts at a `nop`. Without it, it starts at the instruction behind,
and the range that it protects is one byte shorter. -/
theorem sampleClass_preserves_coverage : ∃ written diagnostics classFile image outcomes,
    (convertClass { dropNops := true } sampleSymbols sampleClass).result =
      .ok (written, diagnostics) ∧
    ClassFile.ofBytes sampleClass = .ok classFile ∧ Image.ofBytes written = .ok image ∧
    image.methods.flatMap Image.Method.handlers = [⟨0, 6, 5, some 2⟩] ∧
    image.methods = outcomes.reduceOption ∧
    List.Forall₂ (fun source outcome => ∀ method, outcome = some method →
      ProtectsAlike { dropNops := true } classFile.constants source method
        (tablesOf image (convertClass { dropNops := true } sampleSymbols sampleClass).symbols))
      classFile.methods outcomes := by
  have hhandlers :
      ((convertClass { dropNops := true } sampleSymbols sampleClass).result.toOption.bind
        fun result => (Image.ofBytes result.1).toOption.map fun image =>
        image.methods.flatMap Image.Method.handlers) = some [⟨0, 6, 5, some 2⟩] := by
    decide +kernel
  obtain ⟨written, diagnostics, h, -⟩ := sampleClass_converts true
  obtain ⟨classFile, image, outcomes, hfile, hread, hmethods, hsame⟩ :=
    convertClass_preserves_coverage reachable_sampleSymbols h
  rw [h] at hhandlers
  simp only [Except.toOption, Option.bind_some, hread] at hhandlers
  exact ⟨written, diagnostics, classFile, image, outcomes, h, hfile, hread,
    Option.some.inj hhandlers, hmethods, hsame⟩

end Conversion

end ClassImage
