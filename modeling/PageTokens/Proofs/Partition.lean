import PageTokens.Proofs.Grammar.Lexeme
import PageTokens.Proofs.Reading

/-!
# The partition of an input

A scan takes an input to pieces: a gap and a lexeme, a gap and a lexeme, and a gap at the end.
`ScansTo` says so without a scanner, for a part of the input with the rest of it in view: every gap
is one before what follows, every lexeme is as long as it can be there. `Scans` is the same for an
input as a whole.

The main statement is `tokenize_eq_ok_iff`: what an input is tokenized to are the tokens of its
partitions. Either direction goes through the input piece by piece. A scanner before a piece reads
its token and stands behind it then (`Scanner.read_of_piece`). And any bytes at all begin with a
piece, or are a last gap, or begin with a string without its end (`front_cases`).
-/

namespace PageTokens

theorem Byte.exists_of_text_eq_append {bytes : List Byte} {t u : Text}
    (h : Byte.text bytes = t ++ u) :
    ∃ xs ys, bytes = xs ++ ys ∧ Byte.text xs = t ∧ Byte.text ys = u :=
  List.map_eq_append_iff.mp h

/-! ## Partitions -/

/-- A part of an input that makes one token. -/
structure Piece where
  /-- the gap before the token -/
  gap : List Byte
  /-- what is read as the token -/
  lexeme : List Byte
  /-- the token -/
  token : Token
  deriving DecidableEq, Repr

/-- The bytes of a piece. -/
def Piece.bytes (p : Piece) : List Byte := p.gap ++ p.lexeme

/-- A piece can be taken from an input if its gap is one before what follows, and its lexeme is the
one that stands there. -/
structure Piece.Fits (p : Piece) (rest : List Byte) : Prop where
  /-- the gap before the lexeme -/
  fills : Gap.Fills (Byte.text p.gap) (Byte.text (p.lexeme ++ rest))
  /-- the lexeme before the rest -/
  spells : Lexeme.Spells (Byte.text p.lexeme) (Byte.text rest).head? p.token

/-- A piece is not empty. -/
theorem Piece.Fits.length_pos {p : Piece} {rest : List Byte} (h : p.Fits rest) :
    0 < p.bytes.length := by
  obtain ⟨c, w, hl, -⟩ := h.spells.begun
  have hne : p.lexeme ≠ [] := by
    intro he
    rw [he] at hl
    cases hl
  have := List.length_pos_iff.mpr hne
  simp only [bytes, List.length_append]
  omega

/-- A string can be taken from an input behind a gap, but its closing parenthesis is missing. -/
structure Unclosed (gap string : List Byte) : Prop where
  /-- the gap before the opening parenthesis -/
  fills : Gap.Fills (Byte.text gap) (Byte.text (0x28 :: string))
  /-- what is behind that parenthesis does not come to the end of the string -/
  feeds : ∃ state, Advance.feed Literal.step .start (Byte.text string) = some state

/-- Every input is a gap, or begins with a piece, or with a string without its end. -/
theorem front_cases (bytes : List Byte) :
    Gap.Fills (Byte.text bytes) [] ∨
      (∃ p rest, bytes = p.bytes ++ rest ∧ Piece.Fits p rest) ∨
      ∃ gap string, bytes = gap ++ 0x28 :: string ∧ Unclosed gap string := by
  obtain ⟨gapText, beyond, ht, hf, hb⟩ := Gap.exists_fills (Byte.text bytes)
  obtain ⟨gap, mid, rfl, rfl, rfl⟩ := Byte.exists_of_text_eq_append ht
  rcases hb with hn | hb
  · -- nothing but a gap
    obtain rfl : mid = [] := List.map_eq_nil_iff.mp hn
    rw [List.append_nil]
    exact .inl hf
  rcases Lexeme.exists_spells hb with ⟨l, u, t, hlu, hs⟩ | ⟨u, state, hu, hfeed⟩
  · -- a gap and a lexeme
    obtain ⟨lexeme, rest, rfl, rfl, rfl⟩ := Byte.exists_of_text_eq_append hlu
    exact .inr (.inl ⟨⟨gap, lexeme, t⟩, rest, by simp [Piece.bytes], hf, hs⟩)
  · -- the string that is begun behind the gap does not end
    obtain ⟨b, string, rfl, hc, rfl⟩ := List.map_eq_cons_iff.mp hu
    obtain rfl : b = 0x28 := Byte.char_injective hc
    exact .inr (.inr ⟨gap, string, rfl, hf, state, hfeed⟩)

/-- An input is taken to pieces up to the rest of it. -/
inductive ScansTo : List Byte → List Piece → List Byte → Prop
  /-- no piece -/
  | nil {rest : List Byte} : ScansTo rest [] rest
  /-- a first piece, and pieces behind it -/
  | cons {p : Piece} {ps : List Piece} {s rest : List Byte} :
      p.Fits s → ScansTo s ps rest → ScansTo (p.bytes ++ s) (p :: ps) rest

/-- An input is taken to pieces as a whole, and these are the tokens. -/
def Scans (bytes : List Byte) (ts : List Token) : Prop :=
  ∃ ps gap, ScansTo bytes ps gap ∧ Gap.Fills (Byte.text gap) [] ∧ ts = ps.map Piece.token

theorem scans_of_gap {gap : List Byte} (h : Gap.Fills (Byte.text gap) []) : Scans gap [] :=
  ⟨[], gap, .nil, h, rfl⟩

theorem scans_cons {p : Piece} {s : List Byte} {ts : List Token} (hp : p.Fits s)
    (h : Scans s ts) : Scans (p.bytes ++ s) (p.token :: ts) := by
  obtain ⟨ps, gap, hps, hg, rfl⟩ := h
  exact ⟨p :: ps, gap, .cons hp hps, hg, rfl⟩

/-! ## Scanners before a piece -/

namespace Scanner

variable {s : Scanner}

/-- A scanner before nothing but a gap finds the end. -/
theorem read_of_gap {gap : List Byte} (h : Gap.Fills (Byte.text gap) [])
    (hi : s.cursor.items = Item.ofBytes gap) :
    s.read.answer = .ended := by
  have hg : Gap.machine.trace .space (Item.ofBytes gap ++ []) = ⟨.done (), gap, []⟩ :=
    Gap.trace_of_fills h (.inl rfl) trivial
  rw [List.append_nil, ← hi] at hg
  obtain ⟨c, hr, -⟩ := read_of_traces hg rfl
  rw [hr]
  rfl

/-- What a read before a piece comes to is what comes of the lexeme there. -/
theorem read_of_lexeme_trace {p : Piece} {rest : List Byte} (h : p.Fits rest)
    {e : Ending Lexeme Lexeme.Missing} {items items' : List Item}
    (ht : Lexeme.machine.trace .fresh (Item.ofBytes p.lexeme ++ items) = ⟨e, p.lexeme, items'⟩)
    (hi : s.cursor.items = Item.ofBytes p.bytes ++ items) :
    ∃ c, s.read = conclude e c (s.location.advanceAll p.gap) s.failed ∧ c.items = items' ∧
      c.location = s.location.advanceAll p.bytes := by
  obtain ⟨c, w, hl, hw, hp⟩ := h.spells.begun
  have hg : Gap.machine.trace .space s.cursor.items =
      ⟨.done (), p.gap, Item.ofBytes p.lexeme ++ items⟩ := by
    rw [hi, Piece.bytes, Item.ofBytes_append, List.append_assoc]
    refine Gap.trace_of_fills h.fills (.inr ?_) ?_
    · exact ⟨c, w ++ Byte.text rest, by simp [hl], hw, hp⟩
    · obtain ⟨b, l, hbl, rfl, -⟩ := List.map_eq_cons_iff.mp hl
      simp [hbl, Machine.Begins]
  exact read_of_traces hg ht

/-- **A piece is read as its token**, and the scanner stands behind it then. Of what follows, no
more than the first item matters. -/
theorem read_of_piece {p : Piece} {rest : List Byte} (h : p.Fits rest) :
    ∃ remark, ∀ (s : Scanner) (items : List Item),
      s.cursor.items = Item.ofBytes p.bytes ++ items →
      Machine.Begins items (Byte.text rest).head? →
      ∃ c, s.read = finding ⟨p.token, remark⟩ c (s.location.advanceAll p.gap) s.failed ∧
        c.items = items ∧ c.location = s.location.advanceAll p.bytes := by
  obtain ⟨closed, ht⟩ := h.spells.trace
  refine ⟨Lexeme.remarkOf closed p.token, ?_⟩
  intro s items hi hb
  exact read_of_lexeme_trace h (ht items hb) hi

/-- A scanner before a string without its end rejects it, and names the place of its parenthesis. -/
theorem read_of_unclosed {gap string : List Byte} (h : Unclosed gap string)
    (hi : s.cursor.items = Item.ofBytes (gap ++ 0x28 :: string)) :
    s.read.answer = .error (.unterminated (s.location.advanceAll gap)) := by
  obtain ⟨hf, state, hfeed⟩ := h
  have hbegun : Gap.Begun (Byte.text (0x28 :: string)) :=
    ⟨'(', Byte.text string, rfl, rfl, by decide⟩
  have hg := Gap.trace_of_fills hf (.inr hbegun) (Machine.begins_ofBytes (0x28 :: string))
  rw [← Item.ofBytes_append, ← hi] at hg
  obtain ⟨c, hr, -⟩ := read_of_traces hg (Lexeme.trace_of_unterminated hfeed rfl)
  rw [hr]
  rfl

end Scanner

/-! ## Tokens and partitions -/

namespace Scanner

/-- What collecting comes to before a piece: its token, and what collecting comes to behind it. -/
theorem collect_of_piece {s : Scanner} {p : Piece} {rest : List Byte} (h : p.Fits rest)
    (hi : s.cursor.items = Item.ofBytes (p.bytes ++ rest)) (hf : s.failed = false) :
    ∃ s' : Scanner, s'.cursor.items = Item.ofBytes rest ∧ s'.failed = false ∧
      s.collect.tokens = s'.collect.tokens.map (p.token :: ·) := by
  obtain ⟨remark, hread⟩ := read_of_piece h
  rw [Item.ofBytes_append] at hi
  obtain ⟨c, hr, hc, -⟩ := hread s _ hi (Machine.begins_ofBytes rest)
  have hn : s.next = s.read := by simp [next, hf]
  have ha : s.next.answer = .token p.token := by
    rw [hn, hr]
    rfl
  refine ⟨s.next.after, ?_, ?_, by rw [collect_of_token ha]⟩
  · rw [hn, hr]
    exact hc
  · rw [hn, hr]
    exact hf

/-- A scanner collects the tokens of the pieces before it. -/
theorem collect_of_scansTo {bytes gap : List Byte} {ps : List Piece} (h : ScansTo bytes ps gap)
    (hg : Gap.Fills (Byte.text gap) []) {s : Scanner} (hi : s.cursor.items = Item.ofBytes bytes)
    (hf : s.failed = false) : s.collect.tokens = .ok (ps.map Piece.token) := by
  induction h generalizing s with
  | nil =>
    have ha : s.next.answer = .ended := by
      rw [next, hf]
      exact read_of_gap hg hi
    rw [collect_of_ended ha]
    rfl
  | cons hp _ ih =>
    obtain ⟨s', hi', hf', hs⟩ := collect_of_piece hp hi hf
    rw [hs, ih hg hi' hf']
    rfl

/-- What a scanner collects are the tokens of pieces. The induction is on the bytes before it. -/
theorem scans_of_collect {s : Scanner} {bytes : List Byte} {ts : List Token}
    (hi : s.cursor.items = Item.ofBytes bytes) (hf : s.failed = false)
    (h : s.collect.tokens = .ok ts) : Scans bytes ts := by
  induction hn : bytes.length using Nat.strongRecOn generalizing bytes s ts with
  | ind n ih =>
    rcases front_cases bytes with hg | ⟨p, rest, rfl, hp⟩ | ⟨gap, string, rfl, hu⟩
    · have hs := collect_of_scansTo .nil hg hi hf
      rw [h] at hs
      obtain rfl : ts = [] := Except.ok.inj hs
      exact scans_of_gap hg
    · obtain ⟨s', hi', hf', hs⟩ := collect_of_piece hp hi hf
      rw [h] at hs
      cases ht : s'.collect.tokens with
      | error e => simp [ht, Except.map] at hs
      | ok ts' =>
        obtain rfl : ts = p.token :: ts' := by simpa [ht, Except.map] using hs
        have hlt : rest.length < n := by
          have := hp.length_pos
          simp only [List.length_append] at hn
          omega
        exact scans_cons hp (ih _ hlt hi' hf' ht rfl)
    · have ha : s.next.answer = .error (.unterminated (s.location.advanceAll gap)) := by
        rw [next, hf]
        exact read_of_unclosed hu hi
      rw [collect_of_error ha] at h
      cases h

end Scanner

theorem scans_of_tokenize {input : Input} {bytes : List Byte} (h : input.Delivers bytes)
    {ts : List Token} (ht : tokenize input = .ok ts) : Scans bytes ts :=
  Scanner.scans_of_collect (s := .start input) h rfl ht

theorem tokenize_of_scans {input : Input} {bytes : List Byte} (h : input.Delivers bytes)
    {ts : List Token} (ht : Scans bytes ts) : tokenize input = .ok ts := by
  obtain ⟨ps, gap, hps, hg, rfl⟩ := ht
  exact Scanner.collect_of_scansTo hps hg h rfl

/-- **Tokenizing is partitioning**: a source that delivers some bytes is tokenized to just those
tokens that the bytes can be taken to pieces for. -/
theorem tokenize_eq_ok_iff {input : Input} {bytes : List Byte} (h : input.Delivers bytes)
    (ts : List Token) : tokenize input = .ok ts ↔ Scans bytes ts :=
  ⟨scans_of_tokenize h, tokenize_of_scans h⟩

/-- `(\101)` and `<4`, over deliveries that divide the escape, one of them interrupted, and with
something behind the end. -/
def dividedEscape : Input :=
  ⟨[.data [0x28, 0x5c, 0x31], .failure ⟨.interrupted, ""⟩, .data [0x30, 0x31, 0x29, 0x20, 0x3c, 0x34],
    .data [], .data [0x5d]]⟩

theorem tokenize_dividedEscape :
    dividedEscape.Delivers [0x28, 0x5c, 0x31, 0x30, 0x31, 0x29, 0x20, 0x3c, 0x34] ∧
      tokenize dividedEscape = .ok [⟨.string .literal, ['A']⟩, ⟨.string .hex, ['4', '0']⟩] := by
  have hdelivers : dividedEscape.Delivers [0x28, 0x5c, 0x31, 0x30, 0x31, 0x29, 0x20, 0x3c, 0x34] :=
    rfl
  have hbody : Literal.Body (Byte.text [0x5c, 0x31, 0x30, 0x31]) ['A'] :=
    .escape (.code rfl rfl rfl rfl) .nil
  have hliteral : Piece.Fits
      ⟨[], [0x28, 0x5c, 0x31, 0x30, 0x31, 0x29], ⟨.string .literal, ['A']⟩⟩ [0x20, 0x3c, 0x34] :=
    ⟨.nil, .inl (.literal hbody)⟩
  have hhex : Piece.Fits ⟨[0x20], [0x3c, 0x34], ⟨.string .hex, ['4', '0']⟩⟩ [] :=
    ⟨.white rfl .nil, .inr (.hex ⟨by decide, by decide, by decide⟩)⟩
  have hscans := scans_cons hliteral (scans_cons hhex (scans_of_gap .nil))
  exact ⟨hdelivers, (tokenize_eq_ok_iff hdelivers _).mpr hscans⟩

end PageTokens
