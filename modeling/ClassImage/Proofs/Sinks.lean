import ClassImage.Proofs.Writing

/-!
# Sinks that fill up

The counts of an image fit, so to every sink the image is one byte string. A sink with little room
gets as much of it as it takes, wherever that ends, and the conversion then fails with one more
diagnostic. Everything else is decided before the first byte is written: the diagnostics of the
methods that were left out, the symbol table, and what was reported on the way
(`convertInto_limited_exact`).
-/

namespace ClassImage.Conversion

/-- The diagnostic of a class whose image could not be written. -/
def writeFailed (className : String) (fault : StreamFault) : Diagnostic :=
  { className, method := none, error := .writeFailure fault }

section Outcomes

variable {settings : Settings} {symbols : SymbolTable} {bytes : Bytes}
  {diagnostics : List Diagnostic} {className : String} {image : Image} {sink after : Sink}

/-- Without an image the sink is not touched. -/
theorem convertInto_of_error (h : (toImage settings symbols bytes).result = .error diagnostics)
    (sink : Sink) :
    convertInto settings symbols bytes sink =
      (⟨.error diagnostics, (toImage settings symbols bytes).symbols,
        (toImage settings symbols bytes).events⟩, sink) := by
  rw [convertInto]
  rcases htoImage : toImage settings symbols bytes with ⟨result, symbols', events⟩
  rw [htoImage] at h
  obtain rfl : result = .error diagnostics := h
  rfl

theorem convertInto_of_written (h : (toImage settings symbols bytes).result =
    .ok (className, image, diagnostics)) (hwrite : image.write.run.run sink = (.ok (), after)) :
    convertInto settings symbols bytes sink =
      (⟨.ok diagnostics, (toImage settings symbols bytes).symbols,
        (toImage settings symbols bytes).events⟩, after) := by
  rw [convertInto]
  rcases htoImage : toImage settings symbols bytes with ⟨result, symbols', events⟩
  rw [htoImage] at h
  obtain rfl : result = .ok (className, image, diagnostics) := h
  simp only [hwrite]

theorem convertInto_of_refused {fault : StreamFault}
    (h : (toImage settings symbols bytes).result = .ok (className, image, diagnostics))
    (hwrite : image.write.run.run sink = (.error fault, after)) :
    convertInto settings symbols bytes sink =
      (⟨.error (diagnostics ++ [writeFailed className fault]),
        (toImage settings symbols bytes).symbols, (toImage settings symbols bytes).events ++
          [.failed (writeFailed className fault)]⟩, after) := by
  rw [convertInto]
  rcases htoImage : toImage settings symbols bytes with ⟨result, symbols', events⟩
  rw [htoImage] at h
  obtain rfl : result = .ok (className, image, diagnostics) := h
  simp only [hwrite]
  rfl

theorem convertClass_of_error (h : (toImage settings symbols bytes).result = .error diagnostics) :
    convertClass settings symbols bytes =
      ⟨.error diagnostics, (toImage settings symbols bytes).symbols,
        (toImage settings symbols bytes).events⟩ := by
  rw [convertClass, convertInto_of_error h]
  rfl

theorem run_limited (s : Bytes) (n : Nat) : (Writer.bytes s).run.run (.limited n) =
    (if s.length ≤ n then .ok () else .error .sinkFull,
      ⟨some (n - s.length), (s.take n).toArray⟩) := by
  rw [Sink.limited, Writer.bytes_limited]
  simp

/-- **An image is written whole into memory**, and as far as there is room into a sink with a
limit. -/
theorem convertClass_of_image (hsymbols : symbols.names.WellFormed)
    (h : (toImage settings symbols bytes).result = .ok (className, image, diagnostics)) :
    convertClass settings symbols bytes = ⟨.ok (image.encode, diagnostics),
      (toImage settings symbols bytes).symbols, (toImage settings symbols bytes).events⟩ := by
  have hwrite := (Image.emits_image image).written (countsFit_of_toImage hsymbols h)
  have hrun := Writer.bytes_unlimited image.encode #[]
  rw [← hwrite] at hrun
  rw [convertClass, Sink.unlimited, convertInto_of_written h hrun]
  simp [Except.map, Sink.bytes]

theorem convertInto_limited_of_image (hsymbols : symbols.names.WellFormed)
    (h : (toImage settings symbols bytes).result = .ok (className, image, diagnostics)) (n : Nat) :
    (convertInto settings symbols bytes (.limited n)).2.bytes = image.encode.take n ∧
      (convertInto settings symbols bytes (.limited n)).1 =
        if image.encode.length ≤ n then ⟨.ok diagnostics, (toImage settings symbols bytes).symbols,
          (toImage settings symbols bytes).events⟩
        else ⟨.error (diagnostics ++ [writeFailed className .sinkFull]),
          (toImage settings symbols bytes).symbols, (toImage settings symbols bytes).events ++
            [.failed (writeFailed className .sinkFull)]⟩ := by
  have hwrite := (Image.emits_image image).written (countsFit_of_toImage hsymbols h)
  have hrun := run_limited image.encode n
  rw [← hwrite] at hrun
  by_cases hroom : image.encode.length ≤ n
  · rw [if_pos hroom] at hrun ⊢
    rw [convertInto_of_written h hrun]
    simp [Sink.bytes]
  · rw [if_neg hroom] at hrun ⊢
    rw [convertInto_of_refused h hrun]
    simp [Sink.bytes]

/-- The class whose image is converted has the name that stands in the diagnostics. -/
theorem exists_name_of_image (h : (toImage settings symbols bytes).result =
    .ok (className, image, diagnostics)) :
    ∃ classFile, ClassFile.ofBytes bytes = .ok classFile ∧ classFile.name = .ok className := by
  cases hfile : ClassFile.ofBytes bytes with
  | error fault =>
    rw [toImage, hfile] at h
    exact absurd h (by simp [Outcome.unreadable])
  | ok classFile => exact ⟨classFile, rfl, (exists_run_of_toImage_ok hfile h).1⟩

end Outcomes

/-- **A sink that fills up gets a front part of the image, and nothing else changes.** The sink has
room for `n` bytes. Where a conversion to memory fails, so does this one, with the same diagnostics
and without a byte written. Where it succeeds, the sink gets the first bytes of the image, as many
as there is room for; the conversion succeeds with the same diagnostics just when that is the whole
image, and has one more diagnostic about the class otherwise. The symbol table is the same in all
cases. -/
theorem convertInto_limited_exact (settings : Settings) (symbols : SymbolTable) (bytes : Bytes)
    (n : Nat) (hreachable : Reachable symbols) (outcome : Outcome (List Diagnostic)) (sink : Sink)
    (hrun : convertInto settings symbols bytes (.limited n) = (outcome, sink)) :
    outcome.symbols = (convertClass settings symbols bytes).symbols ∧
    (∀ diagnostics, (convertClass settings symbols bytes).result = .error diagnostics →
      outcome.result = .error diagnostics ∧ outcome.events =
        (convertClass settings symbols bytes).events ∧
        sink.bytes = []) ∧
    ∀ written diagnostics, (convertClass settings symbols bytes).result =
      .ok (written, diagnostics) →
      sink.bytes = written.take (min n written.length) ∧
      (outcome.result = .ok diagnostics ↔ written.length ≤ n) ∧
      (written.length ≤ n → outcome.events = (convertClass settings symbols bytes).events) ∧
      (n < written.length → ∃ classFile className,
        ClassFile.ofBytes bytes = .ok classFile ∧ classFile.name = .ok className ∧
        outcome.result = .error (diagnostics ++ [writeFailed className .sinkFull]) ∧
        outcome.events = (convertClass settings symbols bytes).events ++
          [.failed (writeFailed className .sinkFull)]) := by
  have hwell := hreachable.wellFormed
  have hsymbols : outcome.symbols = (convertClass settings symbols bytes).symbols := by
    rw [convertClass_symbols, ← convertInto_symbols (.limited n), hrun]
  refine ⟨hsymbols, ?_, ?_⟩
  · intro diagnostics h
    rcases himage : (toImage settings symbols bytes).result with
      failed | ⟨className, image, leftOut⟩
    · rw [convertInto_of_error himage] at hrun
      rw [convertClass_of_error himage] at h ⊢
      obtain rfl := Except.error.inj h
      obtain ⟨rfl, rfl⟩ := Prod.mk.inj hrun
      exact ⟨rfl, rfl, rfl⟩
    · rw [convertClass_of_image hwell himage] at h
      exact absurd h (by simp)
  · intro written diagnostics h
    rcases himage : (toImage settings symbols bytes).result with
      failed | ⟨className, image, leftOut⟩
    · rw [convertClass_of_error himage] at h
      exact absurd h (by simp)
    · -- Whether the image fits is all that the outcome turns on.
      obtain ⟨classFile, hfile, hname⟩ := exists_name_of_image himage
      obtain ⟨hbytes, houtcome⟩ := convertInto_limited_of_image hwell himage n
      rw [hrun] at hbytes houtcome
      rw [convertClass_of_image hwell himage] at h ⊢
      obtain ⟨rfl, rfl⟩ := Prod.mk.inj (Except.ok.inj h)
      dsimp only at hbytes houtcome ⊢
      refine ⟨by rw [hbytes, List.take_eq_take_min], ?_, ?_, ?_⟩
      · by_cases hroom : image.encode.length ≤ n
        · rw [houtcome, if_pos hroom]
          exact iff_of_true rfl hroom
        · rw [houtcome, if_neg hroom]
          exact iff_of_false (by simp) hroom
      · intro hroom
        rw [houtcome, if_pos hroom]
      · intro hroom
        rw [houtcome, if_neg (Nat.not_le.mpr hroom)]
        exact ⟨classFile, className, hfile, hname, rfl, rfl⟩

/-- Room for the whole image of the class `A` is enough, and room for one byte less is not. -/
theorem sampleClass_limited_exact : Reachable sampleSymbols ∧ ∃ written diagnostics,
    (convertClass { dropNops := true } sampleSymbols sampleClass).result =
      .ok (written, diagnostics) ∧
    diagnostics.length = 1 ∧ 0 < written.length ∧
    (convertInto { dropNops := true } sampleSymbols sampleClass
      (.limited written.length)).1.result = .ok diagnostics ∧
    (convertInto { dropNops := true } sampleSymbols sampleClass
      (.limited (written.length - 1))).2.bytes = written.take (written.length - 1) ∧
    ∃ className, (convertInto { dropNops := true } sampleSymbols sampleClass
      (.limited (written.length - 1))).1.result =
        .error (diagnostics ++ [writeFailed className .sinkFull]) := by
  have hcheck : (convertClass { dropNops := true } sampleSymbols sampleClass).result.toOption.any
      (fun result => decide (0 < result.1.length)) = true := by
    decide +kernel
  obtain ⟨written, diagnostics, h, hlength⟩ := sampleClass_converts true
  have hpos : 0 < written.length := by
    rw [h] at hcheck
    exact of_decide_eq_true hcheck
  obtain ⟨-, -, hwhole⟩ :=
    convertInto_limited_exact { dropNops := true } sampleSymbols sampleClass written.length
      reachable_sampleSymbols _ _ (Prod.eta _).symm
  obtain ⟨-, -, hcut⟩ := convertInto_limited_exact { dropNops := true } sampleSymbols sampleClass
    (written.length - 1) reachable_sampleSymbols _ _ (Prod.eta _).symm
  obtain ⟨-, hok, -⟩ := hwhole written diagnostics h
  obtain ⟨hbytes, -, -, hfails⟩ := hcut written diagnostics h
  obtain ⟨classFile, className, -, -, hresult, -⟩ := hfails (by omega)
  rw [Nat.min_eq_left (Nat.sub_le _ _)] at hbytes
  exact ⟨reachable_sampleSymbols, written, diagnostics, h, hlength, hpos,
    hok.mpr (Nat.le_refl _), hbytes, className, hresult⟩

end ClassImage.Conversion
