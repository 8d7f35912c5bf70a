import PageTokens.Proofs.Concatenation

/-!
# Strings without their end

Of all bytes only an opening parenthesis can keep a scan from the end of its input: one whose string
is not closed. What stands before it is scanned as if the input ended there, so what is dumped
before the error is the dump of the input cut off at the place that the error names.

Every input can be taken to pieces up to a last gap or up to such a string (`exists_scansTo_end`),
and in either case the pieces say what a scanner yields (`ScansTo.yields_gap`,
`ScansTo.yields_unclosed`). Cut off before the string, the pieces are the same
(`ScansTo.before_unclosed`). The main statement is `dump_of_unterminated`.
-/

namespace PageTokens

open Scanner

/-- Every input is taken to pieces up to a last gap, or up to a string without its end. -/
theorem exists_scansTo_end (bytes : List Byte) :
    ∃ ps rest, ScansTo bytes ps rest ∧
      (Gap.Fills (Byte.text rest) [] ∨
        ∃ gap string, rest = gap ++ 0x28 :: string ∧ Unclosed gap string) := by
  induction hn : bytes.length using Nat.strongRecOn generalizing bytes with
  | ind n ih =>
    rcases front_cases bytes with hg | ⟨p, s, rfl, hp⟩ | ⟨gap, string, rfl, hu⟩
    · exact ⟨[], bytes, .nil, .inl hg⟩
    · have hlt : s.length < n := by
        have := hp.length_pos
        simp only [List.length_append] at hn
        omega
      obtain ⟨ps, rest, hps, hrest⟩ := ih _ hlt s rfl
      exact ⟨p :: ps, rest, .cons hp hps, hrest⟩
    · exact ⟨[], _, .nil, .inr ⟨gap, string, rfl, hu⟩⟩

namespace ScansTo

variable {s : Scanner} {bytes gap string : List Byte} {ps : List Piece}

/-- Up to a last gap a scanner yields the tokens of the pieces, and no error. -/
theorem yields_gap (h : ScansTo bytes ps gap) (hg : Gap.Fills (Byte.text gap) [])
    (hi : s.cursor.items = Item.ofBytes bytes) : s.Yields ⟨found s.location ps, none⟩ := by
  obtain ⟨hitems, -⟩ := h.behind hi
  have hyields := h.yields hi (.ended (read_of_gap hg hitems))
  rw [List.append_nil] at hyields
  exact hyields

/-- Up to a string without its end a scanner yields the tokens of the pieces, and an error that
names the place of the string. -/
theorem yields_unclosed (h : ScansTo bytes ps (gap ++ 0x28 :: string)) (hu : Unclosed gap string)
    (hi : s.cursor.items = Item.ofBytes bytes) :
    s.Yields ⟨found s.location ps,
      some (.unterminated (s.location.advanceAll (ps.flatMap Piece.bytes ++ gap)))⟩ := by
  obtain ⟨hitems, hloc⟩ := h.behind hi
  have hyields := h.yields hi (.error (read_of_unclosed hu hitems))
  rw [List.append_nil, hloc, ← Location.advanceAll_append] at hyields
  exact hyields

/-- Before a string without its end the pieces are those of the input that ends there. -/
theorem before_unclosed (h : ScansTo bytes ps (gap ++ 0x28 :: string)) (hu : Unclosed gap string) :
    ScansTo (ps.flatMap Piece.bytes ++ gap) ps gap ∧ Gap.Fills (Byte.text gap) [] := by
  have hbegun : Gap.Begun (Byte.text (0x28 :: string)) :=
    ⟨'(', Byte.text string, rfl, rfl, by decide⟩
  have hfills : Gap.Fills (Byte.text gap) [] := (hu.fills.closed hbegun).fills []
  refine ⟨h.before_gap hfills.opens ?_, hfills⟩
  intro p hp hend
  exact absurd (h.eq_nil_of_ends p hp hend) (by simp)

end ScansTo

/-! ## The main statement -/

/-- What a place says about an input, if it is the one behind the first bytes of it. -/
theorem Location.at_start_advanceAll (front : List Byte) (b : Byte) (back : List Byte) :
    (front ++ b :: back).take (start.advanceAll front).offset = front ∧
      (front ++ b :: back)[(start.advanceAll front).offset]? = some b := by
  have hoffset : (start.advanceAll front).offset = front.length := by
    rw [offset_advanceAll]
    exact Nat.zero_add _
  rw [hoffset]
  exact ⟨List.take_left, by simp⟩

/-- Where the same tokens are found, before an error or before the end, the same is dumped. -/
theorem dump_of_found {input front : Input} {tokens : List (Token × Location)} {e : ScanError}
    (h : (start input).Yields ⟨tokens, some e⟩) (h' : (start front).Yields ⟨tokens, none⟩)
    (name : String) (settings : Settings) :
    ∃ written, dump input name settings .unlimited = ⟨written, some (.scan name e)⟩ ∧
      dump front name settings .unlimited = ⟨written, none⟩ := by
  have hroom := Sink.unlimited_hasRoom
  exact ⟨_, dump_of_yields h name settings (hroom _), dump_of_yields h' name settings (hroom _)⟩

/-- **What is dumped before an error is the dump of the input cut off at its place**: if a scan ends
in a string without its end, the input has an opening parenthesis at the place that is named, and
line and column say where that is in an input of fewer than 2 ^ 32 bytes. The bytes before it are
tokenized, and dumped as the whole input is but for the error. **Without an opening parenthesis no
scan fails.** -/
theorem dump_of_unterminated {input : Input} {bytes : List Byte} (h : input.Delivers bytes) :
    (∀ place, tokenize input = .error (.unterminated place) →
      bytes[place.offset]? = some 0x28 ∧
        (bytes.length < 4294967296 →
          place.line = 1 + (bytes.take place.offset).count 0x0a ∧
            place.column = 1 + ((bytes.take place.offset).rtakeWhile (· ≠ 0x0a)).length) ∧
        ∀ front : Input, front.Delivers (bytes.take place.offset) →
          (∃ ts, tokenize front = .ok ts) ∧
            ∀ (name : String) (settings : Settings), ∃ written,
              dump input name settings .unlimited =
                  ⟨written, some (.scan name (.unterminated place))⟩ ∧
                dump front name settings .unlimited = ⟨written, none⟩) ∧
      (0x28 ∉ bytes → ∃ ts, tokenize input = .ok ts) := by
  obtain ⟨ps, rest, hps, hgap | ⟨gap, string, rfl, hu⟩⟩ := exists_scansTo_end bytes
  · -- without a string that has no end, no error comes of the bytes
    have hscan : (start input).Yields _ := hps.yields_gap hgap h
    have hok : tokenize input = .ok _ := hscan.collect rfl
    refine ⟨?_, fun _ => ⟨_, hok⟩⟩
    intro place hplace
    rw [hok] at hplace
    cases hplace
  · have hscan : (start input).Yields _ := hps.yields_unclosed hu h
    have herror : tokenize input = .error _ := hscan.collect rfl
    have hbytes : bytes = (ps.flatMap Piece.bytes ++ gap) ++ 0x28 :: string := by
      rw [List.append_assoc]
      exact hps.eq_append
    obtain ⟨hfront, hclosed⟩ := hps.before_unclosed hu
    constructor
    · intro place hplace
      rw [herror] at hplace
      obtain rfl := ScanError.unterminated.inj (Except.error.inj hplace)
      have hstart : (start input).location = .start := rfl
      obtain ⟨htake, hat⟩ :=
        Location.at_start_advanceAll (ps.flatMap Piece.bytes ++ gap) 0x28 string
      rw [hstart, hbytes, htake, hat]
      refine ⟨rfl, ?_, ?_⟩
      · intro hlt
        have hfirst : (ps.flatMap Piece.bytes ++ gap).length < Location.limit := by
          rw [List.length_append, List.length_cons] at hlt
          rw [Location.limit]
          omega
        rw [Location.start_advanceAll_of_lt hfirst]
        exact ⟨rfl, rfl⟩
      · intro front hdelivers
        have hscan' : (start front).Yields _ := hfront.yields_gap hclosed hdelivers
        exact ⟨⟨_, hscan'.collect rfl⟩, dump_of_found hscan hscan'⟩
    · intro hnone
      exact absurd (by simp [hbytes]) hnone

/-- `a`, a line feed and ` (b(c)`, in which only the inner string has its end. -/
def openString : List Byte := [0x61, 0x0a, 0x20, 0x28, 0x62, 0x28, 0x63, 0x29]

theorem dump_openString :
    tokenize (.ofBytes openString) = .error (.unterminated ⟨3, 2, 2⟩) ∧
      (2 = 1 + (openString.take 3).count 0x0a ∧
        2 = 1 + ((openString.take 3).rtakeWhile (· ≠ 0x0a)).length) ∧
      (∃ written, dump (.ofBytes openString) "p" ⟨.text, true⟩ .unlimited =
          ⟨written, some (.scan "p" (.unterminated ⟨3, 2, 2⟩))⟩ ∧
        dump (.ofBytes [0x61, 0x0a, 0x20]) "p" ⟨.text, true⟩ .unlimited = ⟨written, none⟩) ∧
      -- a string of another form, which the end of the input closes
      ∃ ts, tokenize (.ofBytes [0x3c, 0x34, 0x25]) = .ok ts := by
  have herror : tokenize (.ofBytes openString) = .error (.unterminated ⟨3, 2, 2⟩) := by
    decide +kernel
  have hdelivers := Input.delivers_ofBytes
  obtain ⟨-, hplace, hfront⟩ := (dump_of_unterminated (hdelivers openString)).1 _ herror
  obtain ⟨-, hdump⟩ := hfront (.ofBytes [0x61, 0x0a, 0x20]) (hdelivers _)
  exact ⟨herror, hplace (by decide), hdump "p" ⟨.text, true⟩,
    (dump_of_unterminated (hdelivers [0x3c, 0x34, 0x25])).2 (by decide)⟩

end PageTokens
