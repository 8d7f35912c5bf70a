import PageTokens.Proofs.Finality
import PageTokens.Proofs.Grammar.Expression
import PageTokens.Proofs.Recoding

/-!
# What becomes of a run

A run of regular characters is a numeral if it is a word of one of three languages, and a name if it
is not. The languages have no word in common, so the forms can be tried in any order; and their
words are of ASCII, so a text may as well be looked at as UTF-8, byte by byte
(`Numeral.classify?_recode`).

The scanner tries the forms only where the first character could begin a numeral. Nothing is lost by
that (`Lexeme.ofRun_eq` in the grammar), and so every token that begins with a regular character is
what its whole run is classified as, in whatever session it is read. The main statement is
`runs_classified`.
-/

namespace PageTokens

open Lexeme Session Scanner

/-! ## Forms one by one -/

namespace Numeral

/-- Whether a text has a form, by the reader of that form. -/
def test : Numeral → Text → Bool
  | .integer => isInteger
  | .real => isReal
  | .radix => isRadix

theorem test_iff {form : Numeral} {t : Text} : form.test t = true ↔ form.Matches t := by
  cases form with
  | integer => exact isInteger_iff
  | real => exact isReal_iff
  | radix => exact isRadix_iff

theorem classify?_eq_none_iff {t : Text} :
    classify? t = none ↔ ∀ form : Numeral, ¬ form.Matches t := by
  rw [Option.eq_none_iff_forall_ne_some]
  exact forall_congr' fun form => not_congr classify?_eq_some_iff

/-- Whatever the order of the tests, the first that succeeds is the only one. -/
theorem find?_test {order : List Numeral} (h : ∀ form, form ∈ order) (t : Text) :
    order.find? (·.test t) = classify? t := by
  cases hc : classify? t with
  | some form =>
    have hform := classify?_eq_some_iff.mp hc
    cases hf : order.find? (·.test t) with
    | some form' =>
      have htest : form'.test t = true := by simpa using List.find?_some hf
      rw [(test_iff.mp htest).unique hform]
    | none => exact absurd (test_iff.mpr hform) (List.find?_eq_none.mp hf form (h form))
  | none =>
    have hnone := classify?_eq_none_iff.mp hc
    rw [List.find?_eq_none]
    intro form _ ht
    exact hnone form (test_iff.mp ht)

/-- Numerals stay what they are in UTF-8, and nothing else becomes one. -/
theorem Matches.recode_eq {form : Numeral} {t : Text} (h : form.Matches t.recode) : t.recode = t := by
  refine Text.recode_of_forall_lt ?_
  intro c hc
  rcases recodeChar_cases c with ⟨hlt, -⟩ | ⟨-, hne, hge⟩
  · exact hlt
  · -- a character beyond ASCII leaves one beyond ASCII, which no numeral has
    obtain ⟨d, u, hu⟩ := List.exists_cons_of_ne_nil hne
    have hd : d ∈ recodeChar c := hu ▸ List.mem_cons_self ..
    have hmem : d ∈ t.recode := Text.recode_eq t ▸ List.mem_flatMap_of_mem hc hd
    exact absurd (h.regular d hmem).2 (Nat.not_lt.mpr (hge d hd))

theorem matches_recode {form : Numeral} {t : Text} : form.Matches t.recode ↔ form.Matches t := by
  constructor
  · intro h
    exact h.recode_eq ▸ h
  · intro h
    rwa [Text.recode_of_forall_lt fun c hc => (h.regular c hc).2]

/-- To look at a text or at its bytes in UTF-8 comes to the same. -/
theorem classify?_recode (t : Text) : classify? t.recode = classify? t := by
  ext form
  rw [classify?_eq_some_iff, classify?_eq_some_iff, matches_recode]

/-- No word is in two languages. -/
theorem disjoint_language {form form' : Numeral} (h : form ≠ form') :
    ∀ t ∈ form.language, t ∉ form'.language := by
  intro t ht ht'
  exact h ((mem_language_iff.mp ht).unique (mem_language_iff.mp ht'))

end Numeral

/-! ## Runs -/

namespace Lexeme

/-- A lexeme that shows its own end begins with a delimiter. -/
theorem Closed.head_not_regular {l : Text} {t : Token} (h : Closed l t) :
    ∀ c ∈ l.head?, isRegular c = false := by
  cases h with
  | mark m => cases m <;> simp [Mark.spelling, isRegular, isDelimiter]
  | strayParenthesis => simp [isRegular, isDelimiter]
  | literal => simp [isRegular, isDelimiter]
  | hex => simp [isRegular, isDelimiter]
  | base85 => simp [isRegular, isDelimiter]

/-- What begins with a regular character is a run, and is classified as a whole. -/
theorem Open.eq_of_regular {c : Char} {w : Text} {next : Option Char} {t : Token}
    (h : Open (c :: w) next t) (hc : isRegular c = true) :
    t = ⟨runKind (c :: w), c :: w⟩ ∧ (∀ d ∈ c :: w, isRegular d = true) ∧ EndsRun next := by
  cases h with
  | run _ hw hn => exact ⟨rfl, hw, hn⟩
  | literalName => exact absurd hc (by decide)
  | immediateName => exact absurd hc (by decide)
  | strayGreater => exact absurd hc (by decide)
  | hex => exact absurd hc (by decide)
  | base85 => exact absurd hc (by decide)

/-- The kind of a run, by what it is classified as. -/
theorem runKind_eq (t : Text) : runKind t = (Numeral.classify? t).elim .name .numeral := by
  unfold runKind
  split
  · next form h => rw [h]; rfl
  · next h => rw [h]; rfl

/-- A run is numeric just if it is a numeral. -/
theorem isNumeric_runKind {t : Text} :
    (runKind t).isNumeric = true ↔ ∃ form : Numeral, t ∈ form.language := by
  simp only [Numeral.mem_language_iff, ← Numeral.classify?_eq_some_iff, runKind_eq,
    ← Option.isSome_iff_exists]
  cases Numeral.classify? t <;> simp [Kind.isNumeric]

/-- What ends a run goes on ending it if the items begin with it, whatever fails behind. -/
theorem EndsRun.of_begins {next : Option Char} {items : List Item} (h : EndsRun next)
    (hb : Machine.Begins items next) : EndsRun (Byte.text (Item.bytes items)).head? := by
  rcases items with _ | ⟨b | f, items⟩
  · intro c hc
    cases hc
  · cases next with
    | none => cases hb
    | some d =>
      obtain rfl : b.char = d := hb
      exact h
  · cases next <;> cases hb

end Lexeme

namespace Scanner

/-- Behind the place where a token begins stand its lexeme and what is left. -/
theorem ReadsPiece.drop_tokenStart {s : Scanner} {input : Input} {p : Piece} {left : List Item}
    (h : s.ReadsPiece p left) (hc : Covers input s) :
    input.bytes.drop s.read.after.tokenStart.offset = p.lexeme ++ Item.bytes left := by
  obtain ⟨front, hbytes, hlength⟩ := hc
  rw [h.items, Item.bytes_ofBytes_append] at hbytes
  have hstart : s.read.after.tokenStart.offset = (front ++ p.gap).length := by
    rw [h.tokenStart, Location.offset_advanceAll, List.length_append, hlength]
  rw [hstart, hbytes, Piece.bytes, List.append_assoc, ← List.append_assoc, List.drop_left]

/-- A token that begins with a regular character is its whole run, as that is classified. -/
theorem Covers.token_of_regular {s : Scanner} {input : Input} (hc : Covers input s) {t : Token}
    (ha : s.read.answer = .token t) {source : Text}
    (hs : source = Byte.text (input.bytes.drop s.read.after.tokenStart.offset))
    (hr : ∃ c ∈ source.head?, isRegular c = true) :
    t = ⟨runKind (source.takeWhile isRegular), source.takeWhile isRegular⟩ := by
  obtain ⟨p, rest, left, hp, hreads, hside⟩ := exists_piece_of_read ha
  obtain rfl := Answer.token.inj (hreads.answer.symm.trans ha)
  rw [hreads.drop_tokenStart hc, Byte.text_append] at hs
  obtain ⟨c, w, hl, -⟩ := hp.spells.begun
  have hregular : isRegular c = true := by
    obtain ⟨d, hd, hdr⟩ := hr
    rw [hs, hl] at hd
    exact Option.some.inj hd ▸ hdr
  have hclosed : ¬ Closed (Byte.text p.lexeme) p.token := by
    intro hclosed
    have := hclosed.head_not_regular c (by rw [hl]; rfl)
    simp [hregular] at this
  have hopen := hp.spells.resolve_left hclosed
  rw [hl] at hopen
  obtain ⟨ht, hw, hends⟩ := hopen.eq_of_regular hregular
  rw [hl] at hs
  -- what is left begins as the piece has it, and so it does not go on with the run
  have hleft := hends.of_begins (hside.resolve_left hclosed)
  rw [hs, (Numeral.takeWhile_dropWhile_append hw hleft).1]
  exact ht

end Scanner

/-! ## The main statement -/

/-- **A text has a form just if it is a word of its language**, and no other way: no text has two
forms, the tests may come in any order, and it makes no difference whether characters or the bytes
of UTF-8 are looked at. **A token that begins with a regular character is its whole run**, and its
kind is the form of the run, or that of a name if it has none. -/
theorem runs_classified :
    (∀ t : Text,
      (∀ form, Numeral.classify? t = some form ↔ t ∈ form.language) ∧
        (Numeral.classify? t = none ↔ ∀ form : Numeral, t ∉ form.language) ∧
        Numeral.classify? t.recode = Numeral.classify? t ∧
        ∀ order : List Numeral, (∀ form, form ∈ order) →
          order.find? (·.test t) = Numeral.classify? t) ∧
      (∀ form form' : Numeral, form ≠ form' → ∀ t ∈ form.language, t ∉ form'.language) ∧
      ∀ (input : Input) (requests : List Request), ∀ r ∈ readsIn (.start input) requests,
        ∀ t, r.answer = .token t →
          let source := Byte.text (input.bytes.drop r.after.tokenStart.offset)
          (∃ c ∈ source.head?, isRegular c = true) →
            t.kind = (Numeral.classify? (source.takeWhile isRegular)).elim .name .numeral ∧
              t.value = source.takeWhile isRegular := by
  refine ⟨?_, fun _ _ => Numeral.disjoint_language, ?_⟩
  · intro t
    refine ⟨?_, ?_, Numeral.classify?_recode t, fun _ h => Numeral.find?_test h t⟩
    · intro form
      rw [Numeral.classify?_eq_some_iff, Numeral.mem_language_iff]
    · rw [Numeral.classify?_eq_none_iff]
      exact forall_congr' fun form => not_congr Numeral.mem_language_iff.symm
  · intro input requests r hr t ha source hregular
    obtain ⟨s, hc, rfl⟩ := exists_covers_of_mem hr
    have ht := hc.token_of_regular ha rfl hregular
    rw [ht]
    exact ⟨runKind_eq _, rfl⟩

/-- `-.5e+3` behind a parenthesis that closes nothing, divided in its exponent, and another one
behind it. -/
def dividedReal : Input :=
  ⟨[.data [0x29, 0x2d, 0x2e, 0x35, 0x65], .failure ⟨.interrupted, ""⟩, .data [0x2b, 0x33, 0x29]]⟩

theorem runs_dividedReal :
    let t := ['-', '.', '5', 'e', '+', '3']
    t ∈ Numeral.real.language ∧ [.integer, .radix, .real].find? (Numeral.test · t) = some .real ∧
      (behind (.start dividedReal) 1).read.answer = .token ⟨.numeral .real, t⟩ ∧
      (Numeral.classify? t).elim .name .numeral = Kind.numeral .real := by
  intro t
  obtain ⟨htexts, -, hruns⟩ := runs_classified
  obtain ⟨hform, -, -, horder⟩ := htexts t
  have hclassify : Numeral.classify? t = some .real := by decide
  have hfind := horder [.integer, .radix, .real] fun form => by cases form <;> decide
  -- the real is the second token of its source
  have hmem : (behind (.start dividedReal) 1).read ∈ readsIn (.start dividedReal) [.read, .read] :=
    List.mem_cons_of_mem _ (List.mem_cons_self ..)
  have ha : (behind (.start dividedReal) 1).read.answer = .token ⟨.numeral .real, t⟩ := by
    decide +kernel
  have hsource : Byte.text (dividedReal.bytes.drop
      (behind (.start dividedReal) 1).read.after.tokenStart.offset) = t ++ [')'] := by
    decide +kernel
  have hkind := (hruns dividedReal _ _ hmem _ ha ⟨'-', by rw [hsource]; rfl, rfl⟩).1
  have hrun : (t ++ [')']).takeWhile isRegular = t := by decide
  rw [hsource, hrun] at hkind
  exact ⟨(hform .real).mp hclassify, hfind.trans hclassify, ha, hkind.symm⟩

end PageTokens
