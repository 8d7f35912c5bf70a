import PageTokens.Proofs.Layout

/-!
# Inputs of one token

An input may be one token from its first byte to its last: nothing stands before the token, nothing
behind it, and it is the only one (`Input.IsToken`). Since the end of the input ends every lexeme
that can be ended, this comes to the bytes being the lexeme of the token before the end
(`isToken_iff`), which can be said without a scanner.
-/

namespace PageTokens

open Scanner

/-- An input of some bytes is one token: it is tokenized to that alone, and the read that finds it
begins before the first byte and ends behind the last. -/
structure Input.IsToken (input : Input) (bytes : List Byte) (t : Token) : Prop where
  /-- there is no other token -/
  tokens : tokenize input = .ok [t]
  /-- nothing stands before it -/
  tokenStart : (start input).read.after.tokenStart = .start
  /-- nothing stands behind it -/
  location : (start input).read.after.location.offset = bytes.length

section Singleton

variable {input : Input} {bytes : List Byte} {t : Token}

theorem fits_of_spells (h : Lexeme.Spells (Byte.text bytes) none t) :
    Piece.Fits ⟨[], bytes, t⟩ [] :=
  ⟨.nil, h⟩

/-- Bytes that are a lexeme as a whole are scanned as its token. -/
theorem scans_of_spells (h : Lexeme.Spells (Byte.text bytes) none t) : Scans bytes [t] := by
  have hscans := scans_cons (fits_of_spells h) (scans_of_gap .nil)
  rwa [List.append_nil] at hscans

/-- What is tokenized to one token is a gap, its lexeme, and a gap. -/
theorem exists_fits_of_scans (h : Scans bytes [t]) :
    ∃ (p : Piece) (gap : List Byte), bytes = p.bytes ++ gap ∧ p.Fits gap ∧ p.token = t := by
  obtain ⟨ps, gap, hps, -, hts⟩ := h
  obtain _ | ⟨hp, hps⟩ := hps
  · cases hts
  · obtain ⟨ht, hts⟩ := List.cons.inj hts
    obtain rfl := List.map_eq_nil_iff.mp hts.symm
    cases hps
    exact ⟨_, _, rfl, hp, ht.symm⟩

/-- **An input is a token if its bytes are a lexeme** before the end. -/
theorem isToken_iff (h : input.Delivers bytes) :
    input.IsToken bytes t ↔ Lexeme.Spells (Byte.text bytes) none t := by
  constructor
  · intro ht
    obtain ⟨p, gap, rfl, hp, rfl⟩ := exists_fits_of_scans (scans_of_tokenize h ht.tokens)
    obtain ⟨-, hstart, hend⟩ := stepOfReading_of_piece (s := .start input) hp h
    -- the places of the read leave no room for gaps
    have hstart : (start input).read.after.tokenStart = Location.start.advanceAll p.gap := hstart
    have hend : (start input).read.after.location = Location.start.advanceAll p.bytes := hend
    have hbefore : p.gap = [] := by
      have hoffset := congrArg Location.offset (hstart.symm.trans ht.tokenStart)
      rw [Location.offset_advanceAll] at hoffset
      exact List.eq_nil_of_length_eq_zero (Nat.eq_zero_of_add_eq_zero_left hoffset)
    have hbehind : gap = [] := by
      have hoffset := ht.location
      rw [hend, Location.offset_advanceAll, List.length_append] at hoffset
      have hzero : Location.start.offset = 0 := rfl
      exact List.eq_nil_of_length_eq_zero (by omega)
    have hbytes : p.bytes ++ gap = p.lexeme := by
      rw [Piece.bytes, hbefore, hbehind, List.nil_append, List.append_nil]
    rw [hbytes]
    have hspells := hp.spells
    rwa [hbehind] at hspells
  · intro hspells
    have hp := fits_of_spells hspells
    have hi : (start input).cursor.items = Item.ofBytes (Piece.bytes ⟨[], bytes, t⟩ ++ []) := by
      rw [List.append_nil]
      exact h
    obtain ⟨-, hstart, hend⟩ := stepOfReading_of_piece hp hi
    refine ⟨tokenize_of_scans h (scans_of_spells hspells), hstart, ?_⟩
    have hend : (start input).read.after.location = Location.start.advanceAll bytes := hend
    rw [hend, Location.offset_advanceAll]
    exact Nat.zero_add _

/-- What stands at the front of an input is read first. -/
theorem answer_of_front (h : input.Delivers bytes) {l u : Text} (ht : Byte.text bytes = l ++ u)
    (hl : Lexeme.Spells l u.head? t) : (start input).read.answer = .token t := by
  obtain ⟨lexeme, rest, rfl, rfl, rfl⟩ := Byte.exists_of_text_eq_append ht
  have hp : Piece.Fits ⟨[], lexeme, t⟩ rest := ⟨.nil, hl⟩
  exact (after_piece hp (s := .start input) h).1

/-- The first token is the one that is read first. -/
theorem answer_of_tokenize {ts : List Token} (h : tokenize input = .ok (t :: ts)) :
    (start input).read.answer = .token t := by
  have hnext : (start input).next = (start input).read := rfl
  rw [tokenize] at h
  cases ha : (start input).next.answer with
  | token t' =>
    rw [collect_of_token ha] at h
    cases hrest : (start input).next.after.collect.tokens with
    | error e => simp [hrest, Except.map] at h
    | ok ts' =>
      simp only [hrest, Except.map, Except.ok.injEq, List.cons.injEq] at h
      rw [← hnext, ha, h.1]
  | ended =>
    rw [collect_of_ended ha] at h
    cases h
  | error e =>
    rw [collect_of_error ha] at h
    cases h

end Singleton

end PageTokens
