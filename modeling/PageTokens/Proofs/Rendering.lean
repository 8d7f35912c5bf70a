import PageTokens.Proofs.Partition
import PageTokens.Proofs.Printing

/-!
# What is rendered is read back

Rendered tokens, one on each line, are a program again (`program`). It is the program of the same
tokens, as long as nothing is written by an escape where escapes are not understood (`Token.Shown`).
The main statement is `tokenize_program`.

It is reached without a scanner, through the grammar. A parenthesized string may hold any text at
all that has codes for its escapes, since the escapes that are written are escapes as the grammar
has them (`Literal.body_guardParens`). Other tokens are written as they were found, or, if they are
strings, as they were kept; that makes lexemes of the same tokens (`Lexeme.Spells.render`), and the
line feeds between them are gaps.
-/

namespace PageTokens

/-! ## Texts as bytes -/

/-- A character can be written as one byte if its code is one. -/
def IsLatin1 (c : Char) : Prop := c.toNat < 256

instance : DecidablePred IsLatin1 := fun c => inferInstanceAs (Decidable (c.toNat < 256))

/-- The byte of a character. -/
def Byte.ofChar (c : Char) : Byte := UInt8.ofNat c.toNat

/-- The bytes of a text. -/
def Byte.ofText (t : Text) : List Byte := t.map Byte.ofChar

namespace Byte

theorem isLatin1_char (b : Byte) : IsLatin1 b.char :=
  UInt8.toNat_lt b

theorem char_ofChar {c : Char} (h : IsLatin1 c) : (ofChar c).char = c := by
  apply Char.toNat_inj.mp
  rw [toNat_char, ofChar, UInt8.toNat_ofNat_of_lt' h]

/-- A text that can be written as bytes is what the bytes stand for. -/
theorem text_ofText {t : Text} (h : ∀ c ∈ t, IsLatin1 c) : text (ofText t) = t := by
  have hc : ∀ c ∈ t, (Byte.char ∘ ofChar) c = id c := fun c hc => char_ofChar (h c hc)
  rw [text, ofText, List.map_map, List.map_congr_left hc, List.map_id]

theorem isLatin1_of_mem_text {bytes : List Byte} : ∀ c ∈ text bytes, IsLatin1 c := by
  intro c hc
  obtain ⟨b, -, rfl⟩ := List.mem_map.mp hc
  exact isLatin1_char b

theorem ofText_append (t u : Text) : ofText (t ++ u) = ofText t ++ ofText u :=
  List.map_append

end Byte

/-! ## Escapes that are written -/

/-- A character that no escape is written for. -/
def IsShown (c : Char) : Prop := c ≠ '\\' ∧ isControl c = false ∧ IsLatin1 c

instance : DecidablePred IsShown :=
  fun c => inferInstanceAs (Decidable (c ≠ '\\' ∧ isControl c = false ∧ IsLatin1 c))

theorem escapeChar_of_isShown {c : Char} (h : IsShown c) : escapeChar c = [c] := by
  obtain ⟨hs, hc, hl⟩ := h
  have hne : ∀ d, isControl d = true → c ≠ d := by
    rintro d hd rfl
    simp [hc] at hd
  have hbig : ¬ 0xFF < c.toNat := Nat.not_lt.mpr (Nat.le_of_lt_succ hl)
  simp [escapeChar, needsCode, hs, hc, hbig, hne '\n' rfl, hne '\r' rfl, hne '\t' rfl,
    hne '\x08' rfl, hne '\x0c' rfl]

theorem escape_of_isShown {t : Text} (h : ∀ c ∈ t, IsShown c) : escape t = t := by
  induction t with
  | nil => rfl
  | cons c t ih =>
    obtain ⟨hc, ht⟩ := List.forall_mem_cons.mp h
    rw [escape_cons, escapeChar_of_isShown hc, ih ht]
    rfl

/-- The digits of an octal code are octal digits and have their values. -/
theorem digitChar_octal : ∀ d < 8,
    isOctal (Nat.digitChar d) = true ∧ Literal.octalValue (Nat.digitChar d) = d := by
  decide

/-- A code below 512 is written with three digits. -/
theorem octalCode_eq {n : Nat} (h : n < 512) :
    octalCode n = [Nat.digitChar (n / 64), Nat.digitChar (n / 8 % 8), Nat.digitChar (n % 8)] := by
  have h0 : '0' = Nat.digitChar 0 := rfl
  rw [octalCode, Nat.toDigits_eq_if (by decide)]
  by_cases h8 : n < 8
  · have h1 : n / 64 = 0 := by omega
    have h2 : n / 8 % 8 = 0 := by omega
    have h3 : n % 8 = n := by omega
    rw [if_pos h8, h1, h2, h3]
    rfl
  rw [if_neg h8, Nat.toDigits_eq_if (by decide)]
  by_cases h64 : n / 8 < 8
  · have h1 : n / 64 = 0 := by omega
    have h2 : n / 8 % 8 = n / 8 := by omega
    rw [if_pos h64, h1, h2]
    rfl
  · have h1 : n / 8 / 8 = n / 64 := by omega
    rw [if_neg h64, h1, Nat.toDigits_of_lt_base (by omega)]
    rfl

namespace Literal

/-- What an octal code denotes is the character of that code. -/
theorem escaped_octalCode {c : Char} (h : c.toNat < 512) (next : Option Char) :
    Escaped (octalCode c.toNat) next [c] := by
  obtain ⟨ha, hav⟩ := digitChar_octal (c.toNat / 64) (by omega)
  obtain ⟨hb, hbv⟩ := digitChar_octal (c.toNat / 8 % 8) (by omega)
  obtain ⟨hc, hcv⟩ := digitChar_octal (c.toNat % 8) (by omega)
  rw [octalCode_eq h]
  refine .code ha hb hc ?_
  rw [hav, hbv, hcv]
  omega

/-- Guarding finds no parenthesis in an octal code. -/
theorem guardParens_octalCode {n : Nat} (h : n < 512) :
    guardParens (octalCode n) = octalCode n := by
  have hd : ∀ d < 8, guardChar (Nat.digitChar d) = [Nat.digitChar d] := by decide
  rw [octalCode_eq h]
  simp only [guardParens, List.flatMap_cons, List.flatMap_nil, hd _ (show n / 64 < 8 by omega),
    hd _ (show n / 8 % 8 < 8 by omega), hd _ (show n % 8 < 8 by omega)]
  rfl

/-- How a character is written before a body: as itself, or as an escape. -/
theorem body_guardChar {c : Char} (h : c.toNat < 512) {b v : Text} (hb : Body b v) :
    Body (guardParens (escapeChar c) ++ b) (c :: v) := by
  have control : ∀ {d : Char}, (d, c) ∈ controls → Body ('\\' :: [d] ++ b) (c :: v) := by
    intro d hd
    exact .escape (.control hd) hb
  have itself : isSpecial c = false → Body ('\\' :: [c] ++ b) (c :: v) := by
    intro hc
    exact .escape (.itself hc) hb
  unfold escapeChar
  -- the five controls that have letters
  split
  · exact control (by simp [*, controls])
  split
  · exact control (by simp [*, controls])
  split
  · exact control (by simp [*, controls])
  split
  · exact control (by simp [*, controls])
  split
  · exact control (by simp [*, controls])
  -- the backslash, which no parenthesis is guarded behind
  split
  · next hs =>
    subst hs
    exact itself rfl
  -- a code, of three digits, so that no digit behind it is taken for one more
  split
  · rw [guardParens, List.flatMap_cons, ← guardParens, guardParens_octalCode h]
    exact .escape (escaped_octalCode h _) hb
  -- the character itself, guarded if it is a parenthesis
  · next hs _ =>
    by_cases hp : c = '(' ∨ c = ')'
    · have hg : guardParens [c] = ['\\', c] := by simp [guardParens, guardChar, hp]
      rw [hg]
      refine itself ?_
      rcases hp with rfl | rfl <;> rfl
    · have hg : guardParens [c] = [c] := by simp [guardParens, guardChar, hp]
      rw [hg]
      obtain ⟨ho, hc⟩ := not_or.mp hp
      exact .char ho hc hs hb

/-- **Any text can be written as a parenthesized string**, as long as all its characters have octal
codes. -/
theorem body_guardParens {v : Text} (h : ∀ c ∈ v, c.toNat < 512) :
    Body (guardParens (escape v)) v := by
  induction v with
  | nil => exact .nil
  | cons c v ih =>
    obtain ⟨hc, hv⟩ := List.forall_mem_cons.mp h
    rw [escape_cons, guardParens_append]
    exact body_guardChar hc (ih hv)

end Literal

/-! ## Tokens that are written as they can be read -/

/-- Tokens whose values are shown without an escape, unless it is one that is understood, and
without making a hex string look like something else. -/
structure Token.Shown (t : Token) : Prop where
  /-- only parenthesized strings understand escapes -/
  unescaped : t.kind ≠ .string .literal → ∀ c ∈ t.value, c ≠ '\\' ∧ isControl c = false
  /-- behind a `<`, a second one or a tilde does not begin a hex string -/
  not_mistaken : t.kind = .string .hex → t.value.head? ≠ some '<' ∧ t.value.head? ≠ some '~'

namespace Literal

theorem Escaped.lt {e w : Text} {next : Option Char} (h : Escaped e next w)
    (he : ∀ c ∈ e, c.toNat < 512) : ∀ c ∈ w, c.toNat < 512 := by
  cases h with
  | control h =>
    simp only [controls, List.mem_cons, Prod.mk.injEq, List.not_mem_nil, or_false] at h
    rcases h with ⟨-, rfl⟩ | ⟨-, rfl⟩ | ⟨-, rfl⟩ | ⟨-, rfl⟩ | ⟨-, rfl⟩ <;>
      exact List.forall_mem_singleton.mpr (by decide)
  | code ha hb hc hd =>
    have ha := octalValue_lt ha
    have hb := octalValue_lt hb
    have hc := octalValue_lt hc
    simp only [List.mem_singleton, forall_eq]
    omega
  | digit => exact he
  | digits => exact he
  | lineFeed => simp
  | carriageReturn => simp
  | lineEnd => simp
  | itself => exact he

/-- No character of a string has a code of 512 or more. -/
theorem Body.lt {b v : Text} (h : Body b v) (hb : ∀ c ∈ b, c.toNat < 512) :
    ∀ c ∈ v, c.toNat < 512 := by
  induction h with
  | nil => exact hb
  | char _ _ _ _ ih =>
    obtain ⟨hc, hb⟩ := List.forall_mem_cons.mp hb
    exact List.forall_mem_cons.mpr ⟨hc, ih hb⟩
  | group _ _ ih ih' =>
    simp only [List.mem_append, List.mem_cons] at hb
    have hv := ih fun c hc => hb c (.inl (.inr hc))
    have hv' := ih' fun c hc => hb c (.inr (.inr hc))
    intro c hc
    simp only [List.mem_append, List.mem_cons] at hc
    rcases hc with (rfl | hc) | rfl | hc
    · decide
    · exact hv c hc
    · decide
    · exact hv' c hc
  | escape he _ ih =>
    simp only [List.mem_append, List.mem_cons] at hb
    have hw := he.lt fun c hc => hb c (.inl (.inr hc))
    have hv := ih fun c hc => hb c (.inr hc)
    intro c hc
    exact (List.mem_append.mp hc).elim (hw c) (hv c)

end Literal

/-- A value that is shown as it is. -/
theorem Token.Shown.escape_eq {t : Token} (h : t.Shown) (hk : t.kind ≠ .string .literal)
    (hv : ∀ c ∈ t.value, IsLatin1 c) : escape t.value = t.value :=
  escape_of_isShown fun c hc => ⟨(h.unescaped hk c hc).1, (h.unescaped hk c hc).2, hv c hc⟩

namespace Lexeme

theorem mem_hexValue {b : Text} {c : Char} (h : c ∈ hexValue b) :
    (c ∈ b ∧ isWhite c = false) ∨ c = '0' := by
  simp only [hexValue] at h
  split at h
  · exact .inl (by simpa using h)
  · rcases List.mem_append.mp h with h | h
    · exact .inl (by simpa using h)
    · exact .inr (by simpa using h)

theorem length_hexValue (b : Text) : (hexValue b).length % 2 = 0 := by
  simp only [hexValue]
  split
  · assumption
  · rw [List.length_append, List.length_singleton]
    omega

/-- Digits without white space have themselves for a value, or need a zero to be pairs. -/
theorem hexValue_of_not_white {b : Text} (h : ∀ c ∈ b, isWhite c = false) :
    hexValue b = if b.length % 2 = 0 then b else b ++ ['0'] := by
  have hf : b.filter (fun c => !isWhite c) = b := by
    refine List.filter_eq_self.mpr ?_
    intro c hc
    simp [h c hc]
  simp only [hexValue, hf]

/-- The value of a hex string is the value of itself. -/
theorem hexValue_hexValue (b : Text) : hexValue (hexValue b) = hexValue b := by
  have hw : ∀ c ∈ hexValue b, isWhite c = false := by
    intro c hc
    rcases mem_hexValue hc with ⟨-, hw⟩ | rfl
    · exact hw
    · rfl
  rw [hexValue_of_not_white hw, if_pos (length_hexValue b)]

theorem isLatin1_hexValue {b : Text} (h : ∀ c ∈ b, IsLatin1 c) : ∀ c ∈ hexValue b, IsLatin1 c := by
  intro c hc
  rcases mem_hexValue hc with ⟨hc, -⟩ | rfl
  · exact h c hc
  · decide

/-- A hex string is written with its value and with its end, whether it was read with one or not. -/
theorem closed_render_hex {b : Text} (hb : HexBody b) (hl : ∀ c ∈ b, IsLatin1 c)
    (hs : Token.Shown ⟨.string .hex, hexValue b⟩) :
    Closed (Token.render ⟨.string .hex, hexValue b⟩) ⟨.string .hex, hexValue b⟩ := by
  obtain ⟨hd, h85⟩ := hs.not_mistaken rfl
  have hg : '>' ∉ hexValue b := by
    intro hg
    rcases mem_hexValue hg with ⟨hg, -⟩ | hg
    · exact hb.unclosed hg
    · exact absurd hg (by decide)
  have he : escape (hexValue b) = hexValue b := hs.escape_eq (by simp) (isLatin1_hexValue hl)
  have hc := Closed.hex ⟨hg, hd, h85⟩
  rw [hexValue_hexValue] at hc
  rwa [Token.render, he]

theorem closed_render_base85 {v : Text} (hv : ¬ base85End <:+: v) (hl : ∀ c ∈ v, IsLatin1 c)
    (hs : Token.Shown ⟨.string .base85, v⟩) :
    Closed (Token.render ⟨.string .base85, v⟩) ⟨.string .base85, v⟩ := by
  have he : escape v = v := hs.escape_eq (by simp) hl
  rw [Token.render, he]
  exact .base85 hv

/-- The closed lexeme of a token is written as one of the same token. -/
theorem Closed.render {l : Text} {t : Token} (h : Closed l t) (hl : ∀ c ∈ l, IsLatin1 c)
    (hs : t.Shown) : Closed t.render t := by
  cases h with
  | mark m =>
    have hr : (Token.ofMark m).render = m.spelling := by cases m <;> rfl
    rw [hr]
    exact .mark m
  | strayParenthesis => exact .strayParenthesis
  | literal hb =>
    simp only [List.mem_cons, List.mem_append, IsLatin1] at hl
    refine .literal (Literal.body_guardParens (hb.lt ?_))
    intro c hc
    have := hl c (.inl (.inr hc))
    omega
  | hex hb =>
    simp only [List.mem_cons, List.mem_append] at hl
    exact closed_render_hex hb (fun c hc => hl c (.inl (.inr hc))) hs
  | base85 hv =>
    simp only [List.mem_cons, List.mem_append] at hl
    exact closed_render_base85 hv (fun c hc => hl c (.inl (.inr (.inr hc)))) hs

/-- A line feed ends a run. -/
theorem endsRun_of_lineFeed {next : Option Char} (h : ∀ c ∈ next, c = '\n') : EndsRun next := by
  intro c hc
  rw [h c hc]
  rfl

/-- A lexeme of Latin-1 characters is written as a lexeme of the same token, before a line feed and
before the end. -/
theorem Spells.render {l : Text} {next next' : Option Char} {t : Token} (h : Spells l next t)
    (hl : ∀ c ∈ l, IsLatin1 c) (hs : t.Shown) (hn : ∀ c ∈ next', c = '\n') :
    Spells t.render next' t := by
  rcases h with h | h
  · exact .inl (h.render hl hs)
  have hends := endsRun_of_lineFeed hn
  have hne : ∀ d, d ≠ '\n' → next' ≠ some d := by
    intro d hd he
    exact hd (hn d he)
  cases h with
  | run hne ht =>
    -- a numeral stays one, since its form is a matter of its text alone
    have hr : Token.render ⟨runKind l, l⟩ = escape l := by
      rcases runKind_cases l with hk | ⟨form, hk⟩ <;> rw [hk, Token.render]
    have hk : runKind l ≠ .string .literal := by
      rcases runKind_cases l with hk | ⟨form, hk⟩ <;> simp [hk]
    have he : escape l = l := hs.escape_eq hk hl
    rw [hr, he]
    exact .inr (.run hne ht hends)
  | @literalName t next ht =>
    obtain ⟨-, hl⟩ := List.forall_mem_cons.mp hl
    have he : escape t = t := hs.escape_eq (by simp) hl
    rw [Token.render, he]
    exact .inr (.literalName ht hends fun _ => hne '/' (by decide))
  | @immediateName t next ht =>
    obtain ⟨-, hl⟩ := List.forall_mem_cons.mp hl
    obtain ⟨-, hl⟩ := List.forall_mem_cons.mp hl
    have he : escape t = t := hs.escape_eq (by simp) hl
    rw [Token.render, he]
    exact .inr (.immediateName ht hends)
  | strayGreater => exact .inr (.strayGreater (hne '>' (by decide)))
  -- strings that the end of the input closed are written with their delimiters
  | hex hb =>
    obtain ⟨-, hl⟩ := List.forall_mem_cons.mp hl
    exact .inl (closed_render_hex hb hl hs)
  | base85 hv =>
    obtain ⟨-, hl⟩ := List.forall_mem_cons.mp hl
    obtain ⟨-, hl⟩ := List.forall_mem_cons.mp hl
    exact .inl (closed_render_base85 hv hl hs)

end Lexeme

/-! ## Programs -/

/-- Rendered tokens, one on each line. -/
def program (ts : List Token) : Text := ['\n'].intercalate (ts.map Token.render)

theorem program_singleton (t : Token) : program [t] = t.render := by
  simp [program]

theorem program_cons_cons (t u : Token) (ts : List Token) :
    program (t :: u :: ts) = t.render ++ '\n' :: program (u :: ts) := by
  simp [program]

/-- What is rendered can be written as bytes. -/
theorem isLatin1_render (t : Token) : ∀ c ∈ t.render, IsLatin1 c :=
  fun c hc => (t.plain_render c hc).2

theorem isLatin1_program (ts : List Token) : ∀ c ∈ program ts, IsLatin1 c := by
  induction ts with
  | nil => simp [program]
  | cons t ts ih =>
    have ht := isLatin1_render t
    cases ts with
    | nil =>
      rw [program_singleton]
      exact ht
    | cons u ts =>
      rw [program_cons_cons]
      exact List.forall_mem_append.mpr ⟨ht, List.forall_mem_cons.mpr ⟨by decide, ih⟩⟩

/-- A token is rendered as a lexeme, for a line of its own. -/
def Token.Renders (t : Token) : Prop :=
  ∀ next : Option Char, (∀ c ∈ next, c = '\n') → Lexeme.Spells t.render next t

theorem Token.Renders.fits {t : Token} (ht : t.Renders) {gap rest : List Byte}
    (hg : ∀ u, Gap.Fills (Byte.text gap) u) (hr : ∀ c ∈ (Byte.text rest).head?, c = '\n') :
    Piece.Fits ⟨gap, Byte.ofText t.render, t⟩ rest := by
  refine ⟨hg _, ?_⟩
  rw [Byte.text_ofText (isLatin1_render t)]
  exact ht _ hr

/-- The program of tokens is taken to pieces for them, from a line feed or from nothing on. -/
theorem scans_program {ts : List Token} (h : ∀ t ∈ ts, t.Renders) {gap : List Byte}
    (hg : ∀ u, Gap.Fills (Byte.text gap) u) : Scans (gap ++ Byte.ofText (program ts)) ts := by
  induction ts generalizing gap with
  | nil => exact scans_of_gap (by simpa [program, Byte.ofText] using hg [])
  | cons t ts ih =>
    obtain ⟨ht, hts⟩ := List.forall_mem_cons.mp h
    cases ts with
    | nil =>
      have hp : Piece.Fits ⟨gap, Byte.ofText t.render, t⟩ [] := ht.fits hg (by simp)
      have hs := scans_cons hp (scans_of_gap .nil)
      simpa [Piece.bytes, program_singleton] using hs
    | cons u ts =>
      have hlf : ∀ v, Gap.Fills (Byte.text [0x0a]) v := fun v => .white rfl .nil
      have hp : Piece.Fits ⟨gap, Byte.ofText t.render, t⟩
          ([0x0a] ++ Byte.ofText (program (u :: ts))) :=
        ht.fits hg fun c hc => (Option.some.inj hc).symm
      have hrest : Byte.ofText ('\n' :: program (u :: ts)) =
          [0x0a] ++ Byte.ofText (program (u :: ts)) := rfl
      rw [program_cons_cons, Byte.ofText_append, hrest, ← List.append_assoc]
      exact scans_cons hp (ih hts hlf)

/-- Tokens are read back if their program can be written as bytes and is tokenized to them. -/
def ReadBack (ts : List Token) : Prop :=
  (∀ c ∈ program ts, IsLatin1 c) ∧
    ∀ input : Input, input.Delivers (Byte.ofText (program ts)) → tokenize input = .ok ts

theorem readBack_of_renders {ts : List Token} (h : ∀ t ∈ ts, t.Renders) : ReadBack ts := by
  have hnil : ∀ u, Gap.Fills (Byte.text []) u := fun _ => .nil
  refine ⟨isLatin1_program ts, ?_⟩
  intro input hi
  exact tokenize_of_scans hi (scans_program h hnil)

/-- The token of a piece of an input is rendered as a lexeme of itself. -/
theorem Piece.Fits.renders {p : Piece} {rest : List Byte} (h : p.Fits rest) (hs : p.token.Shown) :
    p.token.Renders :=
  fun _ hn => h.spells.render Byte.isLatin1_of_mem_text hs hn

theorem ScansTo.renders {bytes rest : List Byte} {ps : List Piece} (h : ScansTo bytes ps rest)
    (hs : ∀ p ∈ ps, p.token.Shown) : ∀ p ∈ ps, p.token.Renders := by
  induction h with
  | nil => simp
  | cons hp _ ih =>
    obtain ⟨hps, hs⟩ := List.forall_mem_cons.mp hs
    exact List.forall_mem_cons.mpr ⟨hp.renders hps, ih hs⟩

/-- **What is rendered is read back**: the tokens of a source, if all are shown as they can be read,
and any parenthesized strings with codes up to 511. -/
theorem tokenize_program :
    (∀ (input : Input) (bytes : List Byte) (ts : List Token), input.Delivers bytes →
      tokenize input = .ok ts → (∀ t ∈ ts, t.Shown) → ReadBack ts) ∧
    ∀ values : List Text, (∀ v ∈ values, ∀ c ∈ v, c.toNat < 512) →
      ReadBack (values.map fun v => ⟨.string .literal, v⟩) := by
  constructor
  · intro input bytes ts hi ht hs
    obtain ⟨ps, gap, hps, -, rfl⟩ := scans_of_tokenize hi ht
    rw [List.forall_mem_map] at hs
    exact readBack_of_renders (List.forall_mem_map.mpr (hps.renders hs))
  · intro values hv
    refine readBack_of_renders (List.forall_mem_map.mpr ?_)
    intro v hmem _ _
    exact .inl (.literal (Literal.body_guardParens (hv v hmem)))

/-- `(\0018)//`, with a digit behind an octal escape and an empty name, and strings that end in a
parenthesis or in a character beyond Latin-1. -/
theorem readBack_octal :
    ReadBack [⟨.string .literal, ['\x01', '8']⟩, ⟨.immediateName, []⟩] ∧
      ReadBack [⟨.string .literal, ['\\', '(']⟩, ⟨.string .literal, ['\r', '\u01ff']⟩] := by
  have hdelivers := Input.delivers_ofBytes [0x28, 0x5c, 0x30, 0x30, 0x31, 0x38, 0x29, 0x2f, 0x2f]
  have hbody : Literal.Body (Byte.text [0x5c, 0x30, 0x30, 0x31, 0x38]) ['\x01', '8'] :=
    .escape (.code rfl rfl rfl rfl) (.char (by decide) (by decide) (by decide) .nil)
  have hliteral : Piece.Fits ⟨[], [0x28, 0x5c, 0x30, 0x30, 0x31, 0x38, 0x29],
      ⟨.string .literal, ['\x01', '8']⟩⟩ [0x2f, 0x2f] := ⟨.nil, .inl (.literal hbody)⟩
  have hname : Piece.Fits ⟨[], [0x2f, 0x2f], ⟨.immediateName, []⟩⟩ [] :=
    ⟨.nil, .inr (.immediateName (by simp) (by simp [Lexeme.EndsRun]))⟩
  have hscans := scans_cons hliteral (scans_cons hname (scans_of_gap .nil))
  refine ⟨tokenize_program.1 _ _ _ hdelivers (tokenize_of_scans hdelivers hscans) ?_,
    tokenize_program.2 [['\\', '('], ['\r', '\u01ff']] (by simp)⟩
  intro t ht
  rcases List.mem_cons.mp ht with rfl | ht
  · exact ⟨by simp, by simp⟩
  · obtain rfl := List.mem_singleton.mp ht
    exact ⟨by simp, by simp⟩

end PageTokens
