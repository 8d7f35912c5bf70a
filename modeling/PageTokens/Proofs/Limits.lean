import PageTokens.Proofs.Consumers

/-!
# Sinks that are too small

A sink with a limit takes the front of a dump, as far as it has room, and what did not fit decides
about the error: a dump that fits ends as it would in a sink without a limit, and any other ends in
an error of the sink, whatever the scan came to. The sink fails as JSON only within the list itself;
the line feed behind it is no part of it.

The main statement is `dump_limited`.
-/

namespace PageTokens

/-- A limited sink takes what it has room for, and is full if that is not all. -/
theorem Sink.put_limited (room : Nat) (piece : List Byte) :
    (Sink.mk (some room)).put piece =
      ⟨piece.take room,
        if piece.length ≤ room then some ⟨some (room - piece.length)⟩ else none⟩ := by
  by_cases h : piece.length ≤ room
  · simp only [put, if_pos h, List.take_of_length_le h]
  · simp only [put, if_neg h]

namespace Dump

/-- The error of a sink that has room for fewer bytes than a dump has. -/
def errorOfLimit (format : Format) (limit length : Nat) : Error :=
  if format = .json ∧ limit + 1 < length then .json sinkFull else .io sinkFull

variable (records : List Record) (limit : Nat)

theorem putText_limited :
    putText ⟨some limit⟩ records =
      ((full .text records).take limit,
        if (full .text records).length ≤ limit then none else some (.io sinkFull)) := by
  have hfull : (lines records).flatten = full .text records := rfl
  rw [putText, Sink.putAll_eq_put, Sink.put_limited, hfull]
  by_cases h : (full .text records).length ≤ limit
  · simp only [if_pos h]
  · simp only [if_neg h]

theorem putJson_limited :
    putJson ⟨some limit⟩ records =
      ((full .json records).take limit,
        if (full .json records).length ≤ limit then none
        else some (errorOfLimit .json limit (full .json records).length)) := by
  generalize hbody : Text.utf8 (Json.pretty (records.map Record.fields)) = body
  have hfull : full .json records = body ++ [0x0a] := by
    rw [full, Text.utf8_append, hbody]
    rfl
  have hlength : (full .json records).length = body.length + 1 := by
    rw [hfull, List.length_append, List.length_singleton]
  have hend : Text.utf8 ['\n'] = [0x0a] := rfl
  rw [putJson, hbody, hend, Sink.put_limited, hlength]
  by_cases hfits : body.length ≤ limit
  · -- the list fits, and the line feed has what room is left
    have htake : (full .json records).take limit = body ++ [0x0a].take (limit - body.length) := by
      rw [hfull, List.take_append, List.take_of_length_le hfits]
    simp only [if_pos hfits, Sink.put_limited, List.length_singleton, htake,
      List.take_of_length_le hfits]
    by_cases hline : 1 ≤ limit - body.length
    · have hall : body.length + 1 ≤ limit := by omega
      simp only [if_pos hline, if_pos hall]
    · have hall : ¬ body.length + 1 ≤ limit := by omega
      have herror : errorOfLimit .json limit (body.length + 1) = .io sinkFull :=
        if_neg fun h => absurd h.2 (by omega)
      simp only [if_neg hline, if_neg hall, herror]
  · have hall : ¬ body.length + 1 ≤ limit := by omega
    have herror : errorOfLimit .json limit (body.length + 1) = .json sinkFull :=
      if_pos ⟨rfl, by omega⟩
    have htake : (full .json records).take limit = body.take limit := by
      rw [hfull, List.take_append_of_le_length (Nat.le_of_not_le hfits)]
    simp only [if_neg hfits, if_neg hall, herror, htake]

/-- A limited sink takes the front of a dump, and has an error of its own for what did not fit. -/
theorem put_limited (format : Format) :
    put ⟨some limit⟩ format records =
      ((full format records).take limit,
        if (full format records).length ≤ limit then none
        else some (errorOfLimit format limit (full format records).length)) := by
  cases format with
  | text =>
    have herror : ∀ length, errorOfLimit .text limit length = .io sinkFull :=
      fun _ => if_neg (by simp)
    rw [put, putText_limited, herror]
  | json => rw [put, putJson_limited]

end Dump

/-- **A sink that fails has the front of the dump, and its own error**: of what a dump comes to in a
sink without a limit, a limited one has the first bytes, as many as it takes. If these are all, the
dump ends as it does without the limit. If not, it ends in an error of the sink, whatever the scan
came to. -/
theorem dump_limited (input : Input) (name : String) (settings : Settings) (limit : Nat) :
    let whole := dump input name settings .unlimited
    dump input name settings ⟨some limit⟩ =
      ⟨whole.written.take limit,
        if whole.written.length ≤ limit then whole.error
        else some (Dump.errorOfLimit settings.format limit whole.written.length)⟩ := by
  obtain ⟨scan, hscan⟩ := Scanner.exists_yields (.start input)
  intro whole
  have hwhole : whole = ⟨Dump.full settings.format (scan.records settings.showLocation),
      scan.error.map (.scan name)⟩ := dump_of_yields hscan name settings (Sink.unlimited_hasRoom _)
  rw [hwhole, dump]
  simp only [hscan.records, hscan.scanError?, Dump.put_limited]
  by_cases h : (Dump.full settings.format (scan.records settings.showLocation)).length ≤ limit
  · simp only [if_pos h]
  · simp only [if_neg h]

/-- Room for `[]` but not for its line end, where the scan has an error too. -/
example : dump (.ofBytes [0x28]) "p" ⟨.json, false⟩ ⟨some 2⟩ =
    ⟨[0x5b, 0x5d], some (.io Dump.sinkFull)⟩ := by
  decide +kernel

end PageTokens
