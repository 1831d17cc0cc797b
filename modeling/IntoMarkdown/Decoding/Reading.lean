import IntoMarkdown.Decoding.Decoded

/-! # Every input is read in one way

The bytes fix the text, the ranges of the source and the diagnostics. Strict decoding accepts the
codes of texts and nothing else. -/

namespace IntoMarkdown.Decoding
open Lib Lib.Strings Converters

/-! ## Character sets -/

/-- The code of a character. -/
def Charset.code : Charset → Char → List UInt8
  | .utf8 => String.utf8EncodeChar
  | .utf16Le => Utf16.encodeChar .little
  | .utf16Be => Utf16.encodeChar .big

/-- What is broken, with what follows it. -/
def Charset.Broken : Charset → List UInt8 → List UInt8 → Prop
  | .utf8 => Utf8.Subpart
  | .utf16Le => Utf16.Lone .little
  | .utf16Be => Utf16.Lone .big

theorem Charset.lawful (charset : Charset) : LawfulCode charset.code charset.Broken :=
  match charset with
  | .utf8 => Utf8.lawful
  | .utf16Le => Utf16.lawful .little
  | .utf16Be => Utf16.lawful .big

/-! ## Ranges in order -/

section
variable {code : Char → List UInt8} {found : List (Found Char)} {start : Nat}

theorem piecesFrom_start (h : piece ∈ piecesFrom code start found) : start ≤ piece.start := by
  induction found generalizing start with
  | nil => cases h
  | cons first found ih =>
    rcases List.mem_cons.mp h with rfl | hmem
    · exact Nat.le_refl _
    · exact Nat.le_trans (Nat.le_add_right _ _) (ih hmem)

theorem piecesFrom_inOrder (code : Char → List UInt8) (found : List (Found Char)) (start : Nat) :
    InOrder (piecesFrom code start found) := by
  induction found generalizing start with
  | nil => exact ⟨List.forall_mem_nil _, .nil⟩
  | cons first found ih =>
    have hfirst : Piece.Proper ⟨[foundChar first], start, start + first.width code⟩ :=
      ⟨List.cons_ne_nil _ _, Nat.le_add_right _ _⟩
    have hrest := ih (start + first.width code)
    exact ⟨List.forall_mem_cons.mpr ⟨hfirst, hrest.proper⟩,
      List.pairwise_cons.mpr ⟨fun piece hpiece => piecesFrom_start hpiece, hrest.ordered⟩⟩

theorem piecesFrom_text (code : Char → List UInt8) (found : List (Found Char)) (start : Nat) :
    (piecesFrom code start found).flatMap Piece.value = found.map foundChar := by
  induction found generalizing start with
  | nil => rfl
  | cons first found ih =>
    rw [piecesFrom, List.flatMap_cons, ih, List.map_cons]
    rfl

theorem brokenRanges_eq_nil (h : brokenRanges code start found = []) :
    found.all Found.isGood = true := by
  induction found generalizing start with
  | nil => rfl
  | cons first found ih =>
    cases first with
    | good c => exact ih h
    | bad length => cases h

end

/-! ## Diagnostics -/

section
variable {σ : Type} (runtime : Runtime σ) (slots : Slots)

theorem intoDiagnostics_yields (charset : Charset) (spans : List RecoverySpan)
    (memory : LogicalMemory σ) :
    Yields (fun done => done.1.items = spans.map (intoDiagnostic charset))
      (intoDiagnostics runtime slots charset spans memory) := by
  have hfold (spans : List RecoverySpan) (done : Vec Diagnostic × LogicalMemory σ) :
      Yields (fun done' => done'.1.items = done.1.items ++ spans.map (intoDiagnostic charset))
        (spans.foldlM (fun done span => do
          let memory ← done.2.charge runtime (256 + invalidSequenceCode.utf8ByteSize)
          .ok (done.1.push (intoDiagnostic charset span), memory)) done) := by
    induction spans generalizing done with
    | nil => exact .ok (List.append_nil _).symm
    | cons span spans ih =>
      rw [List.foldlM_cons]
      have hstep : Yields (fun next => next.1.items = done.1.items ++ [intoDiagnostic charset span])
          (done.2.charge runtime (256 + invalidSequenceCode.utf8ByteSize) >>= fun memory =>
            .ok (done.1.push (intoDiagnostic charset span), memory)) :=
        (LogicalMemory.charge_yields runtime _ _).bind fun memory _ => .ok (Vec.push_items _ _)
      refine hstep.bind fun next hnext => (ih next).mono fun final hfinal => ?_
      rw [hfinal, hnext, List.append_assoc]
      rfl
  refine (LogicalMemory.reserveVec_yields runtime _ _ _ _).bind fun reserved hreserved => ?_
  have hdone := hfold spans reserved
  rwa [hreserved] at hdone

end

/-! ## The whole input -/

/-- The text with its ranges, and the diagnostics, for what is found in the bytes. -/
structure Reading {σ : Type} (charset : Charset) (base : Nat) (found : List (Found Char))
    (done : DecodedText σ × List Diagnostic) : Prop where
  holds : done.1.Holds (piecesFrom charset.code base found)
  exact : Exact base (piecesFrom charset.code base found) done.1
  diagnostics : done.2 =
    (spansOf (brokenRanges charset.code base found)).map (intoDiagnostic charset)

section
variable {σ : Type} (runtime : Runtime σ) (slots : Slots)

theorem reads_new (base : Nat) (memory : LogicalMemory σ) :
    Decoder.Reads ⟨.new base memory, {}⟩ base [] [] :=
  ⟨DecodedText.holds_new base memory, rfl, rfl⟩

/-- What a loop has read, with the diagnostics. -/
theorem LoopReads.decode {charset : Charset} {mode : TextDecodingMode} {base : Nat}
    {found : List (Found Char)} {run : Decoder σ → Except ConversionError (Decoder σ)}
    (h : LoopReads charset.code charset mode base found run) (memory : LogicalMemory σ) :
    Limited (fun done (_ : Unit) => Reading charset base found done)
      (run ⟨.new base memory, {}⟩ >>= fun decoder =>
        intoDiagnostics runtime slots charset decoder.recoveries.items decoder.decoded.memory >>=
          fun diagnostics => .ok ({ decoder.decoded with memory := diagnostics.2 },
            diagnostics.1.items))
      (accept charset.code charset mode found base) := by
  have hrun := h _ base [] [] (reads_new base memory)
  rw [List.nil_append, List.nil_append] at hrun
  refine hrun.bind_yields fun decoder _ hdecoder => ?_
  refine (intoDiagnostics_yields runtime slots charset _ _).bind fun done hdone => ?_
  have hholds := hdecoder.holds.withMemory done.2
  have hexact := hholds.exact (piecesFrom_inOrder _ _ _)
  exact .ok ⟨hholds, hdecoder.source ▸ hexact, by rw [hdone, hdecoder.recoveries]⟩

variable {bytes : List UInt8} {base : Nat} {charset : Charset} {mode : TextDecodingMode}
  {memory : LogicalMemory σ} {done : DecodedText σ × List Diagnostic} {found : List (Found Char)}

theorem Reading.text (h : Reading charset base found done) :
    done.1.text.items = found.map foundChar := by
  rw [h.exact.text, piecesFrom_text]

/-- Nothing is reported, and everything found is a character. -/
theorem Reading.good_of_nil (h : Reading charset base found done) (hnil : done.2 = []) :
    found.all Found.isGood = true := by
  rw [h.diagnostics, List.map_eq_nil_iff, spansOf, List.map_eq_nil_iff, List.splitBy_eq_nil]
    at hnil
  exact brokenRanges_eq_nil hnil

theorem map_foundChar_goods (text : Text) : (text.map Found.good).map foundChar = text := by
  rw [List.map_map]
  exact List.map_id text

theorem accept_strict (h : accept charset.code charset .strict found base = .ok ()) :
    brokenRanges charset.code base found = [] := by
  unfold accept at h
  split at h
  · assumption
  · next range _ _ =>
    rw [refuse_of rfl] at h
    cases h

end

/-- A character, a surrogate without the other, and a character. -/
def sampleBytes : List UInt8 := [0x41, 0x00, 0x00, 0xd8, 0x42, 0x00]

end IntoMarkdown.Decoding
