import PageTokens.Proofs.Fidelity
import PageTokens.Proofs.TextDump

/-!
# Dumps as programs

What is rendered is of Latin-1, and read back where each character is written as its byte. A dump is
written in UTF-8 instead, and a scanner, to which bytes are characters, reads something else: the
characters from U+0080 on are taken apart (`Text.recode`). In a parenthesized string these are the
upper half of Latin-1 alone, from the no-break space on, since all others beyond ASCII are written
by escapes (`Text.reread`).

Nothing else changes. The bytes that a character is taken apart into are beyond ASCII, and so they
are no parentheses, no backslashes and no digits (`Literal.body_recode`). The lines of a dump are
words before white space (`Text.ScansAs.word`), and whatever tokens they tell of, the parenthesized
strings among them are found again, but for those characters.
-/

namespace PageTokens

open Lexeme

/-! ## UTF-8 read byte by byte -/

/-- A text that is written in UTF-8, as it is read: each byte is a character. -/
def Text.recode (t : Text) : Text := Byte.text (Text.utf8 t)

/-- One character of it. -/
def recodeChar (c : Char) : Text := Byte.text (String.utf8EncodeChar c)

/-- A character of ASCII stays what it is, and of any other nothing is left in ASCII. -/
theorem recodeChar_cases (c : Char) :
    c.toNat < 0x80 ∧ recodeChar c = [c] ∨
      0x80 ≤ c.toNat ∧ recodeChar c ≠ [] ∧ ∀ d ∈ recodeChar c, 0x80 ≤ d.toNat := by
  rcases utf8EncodeChar_cases c with ⟨hlt, he⟩ | ⟨hge, hb⟩
  · have hchar : Byte.char (UInt8.ofNat c.toNat) = c :=
      Byte.char_ofChar (Nat.lt_trans hlt (by decide))
    refine .inl ⟨hlt, ?_⟩
    rw [recodeChar, he, Byte.text_cons, hchar, Byte.text_nil]
  · refine .inr ⟨hge, ?_, ?_⟩
    · rw [recodeChar, Byte.text, Ne, List.map_eq_nil_iff]
      exact List.ne_nil_of_length_pos (by simpa using c.utf8Size_pos)
    · intro d hd
      obtain ⟨b, hmem, rfl⟩ := List.mem_map.mp hd
      exact hb b hmem

theorem recodeChar_of_lt {c : Char} (h : c.toNat < 0x80) : recodeChar c = [c] :=
  (recodeChar_cases c).elim (·.2) fun hc => absurd h (Nat.not_lt.mpr hc.1)

theorem keeps_recodeChar {c : Char} (h : c.toNat < 0x80) : Keeps recodeChar c := by
  refine ⟨recodeChar_of_lt h, ?_⟩
  intro d
  rcases recodeChar_cases d with ⟨-, hd⟩ | ⟨-, hne, hd⟩
  · exact .inl hd
  · exact .inr ⟨hne, fun hmem => absurd (hd c hmem) (Nat.not_le.mpr h)⟩

theorem spares_recodeChar : Spares recodeChar :=
  ⟨keeps_recodeChar (by decide), keeps_recodeChar (by decide), keeps_recodeChar (by decide)⟩

namespace Text

theorem recode_eq (t : Text) : recode t = t.flatMap recodeChar :=
  List.map_flatMap

theorem recode_append (t u : Text) : recode (t ++ u) = recode t ++ recode u := by
  simp only [recode_eq, List.flatMap_append]

theorem recode_cons {c : Char} (h : c.toNat < 0x80) (t : Text) :
    recode (c :: t) = c :: recode t := by
  rw [recode_eq, List.flatMap_cons, recodeChar_of_lt h, recode_eq]
  rfl

theorem recode_of_forall_lt {t : Text} (h : ∀ c ∈ t, c.toNat < 0x80) : recode t = t := by
  rw [recode_eq]
  exact flatMap_of_forall fun c hc => recodeChar_of_lt (h c hc)

/-- Delimiters stay where they are. -/
theorem recode_delimited (front : Text) {back : Text} (hf : ∀ c ∈ front, c.toNat < 0x80)
    (hb : ∀ c ∈ back, c.toNat < 0x80) (t : Text) :
    recode (front ++ t ++ back) = front ++ recode t ++ back := by
  rw [recode_append, recode_append, recode_of_forall_lt hf, recode_of_forall_lt hb]

end Text

open Text

theorem ne_of_le_of_lt {c d : Char} {n : Nat} (hc : n ≤ c.toNat) (hd : d.toNat < n) : c ≠ d := by
  rintro rfl
  exact absurd hc (Nat.not_le.mpr hd)

/-- What is beyond ASCII is regular. -/
theorem isRegular_of_le {c : Char} (h : 0x80 ≤ c.toNat) : isRegular c = true := by
  have hne : ∀ d : Char, d.toNat < 0x80 → (c == d) = false :=
    fun d hd => beq_eq_false_iff_ne.mpr (ne_of_le_of_lt h hd)
  rw [isRegular_iff]
  constructor
  · simp [isWhite, hne]
  · simp [isDelimiter, hne]

theorem isRegular_recode {t : Text} (h : ∀ c ∈ t, isRegular c = true) :
    ∀ c ∈ recode t, isRegular c = true := by
  intro c hc
  rw [recode_eq] at hc
  obtain ⟨d, hd, hc⟩ := List.mem_flatMap.mp hc
  rcases recodeChar_cases d with ⟨-, hs⟩ | ⟨-, -, hs⟩
  · rw [hs, List.mem_singleton] at hc
    exact hc ▸ h d hd
  · exact isRegular_of_le (hs c hc)

/-! ## Values of parenthesized strings -/

/-- The characters beyond ASCII that are written without an escape. -/
def IsUpper (c : Char) : Prop := 0xA0 ≤ c.toNat ∧ c.toNat ≤ 0xFF

instance : DecidablePred IsUpper :=
  fun c => inferInstanceAs (Decidable (0xA0 ≤ c.toNat ∧ c.toNat ≤ 0xFF))

/-- One character of a value as it is read from UTF-8. -/
def rereadChar (c : Char) : Text := if IsUpper c then Byte.text (Text.utf8 [c]) else [c]

/-- The value of a parenthesized string as it is read from UTF-8: the characters without an escape
are taken apart into those of their bytes. -/
def Text.reread (v : Text) : Text := v.flatMap rereadChar

namespace IsUpper

variable {c : Char}

theorem isShown (h : IsUpper c) : IsShown c := by
  obtain ⟨hlow, hhigh⟩ := h
  refine ⟨ne_of_le_of_lt hlow (by decide), ?_, Nat.lt_succ_of_le hhigh⟩
  simp [isControl]
  omega

theorem le_of_mem_recodeChar (h : IsUpper c) : ∀ d ∈ recodeChar c, 0x80 ≤ d.toNat := by
  rcases recodeChar_cases c with ⟨hlt, -⟩ | ⟨-, -, hle⟩
  · exact absurd (Nat.lt_of_lt_of_le hlt (by decide)) (Nat.not_lt.mpr h.1)
  · exact hle

end IsUpper

theorem rereadChar_of_isUpper {c : Char} (h : IsUpper c) : rereadChar c = recodeChar c := by
  rw [rereadChar, if_pos h, Text.utf8, List.flatMap_singleton]
  rfl

/-- There are two bytes to each of these characters. -/
theorem length_recodeChar {c : Char} (h : IsUpper c) : (recodeChar c).length = 2 := by
  obtain ⟨hlow, hhigh⟩ := h
  have hc : c.val.toNat = c.toNat := rfl
  have hascii : ¬ c.val ≤ 0x7F := by
    simp only [UInt32.le_iff_toNat_le, UInt32.reduceToNat]
    omega
  have htwo : c.val ≤ 0x7FF := by
    simp only [UInt32.le_iff_toNat_le, UInt32.reduceToNat]
    omega
  simp [recodeChar, Byte.text, Char.utf8Size, hascii, htwo]

theorem rereadChar_eq_or_lt (c : Char) : rereadChar c = [c] ∨ 1 < (rereadChar c).length := by
  by_cases h : IsUpper c
  · rw [rereadChar_of_isUpper h, length_recodeChar h]
    exact .inr (by decide)
  · exact .inl (if_neg h)

/-- Just the values without such characters are read as they are. -/
theorem reread_eq_iff {v : Text} : reread v = v ↔ ∀ c ∈ v, ¬ IsUpper c := by
  rw [reread, flatMap_eq_iff rereadChar_eq_or_lt]
  refine forall₂_congr fun c _ => ?_
  constructor
  · intro hc h
    have hlength := length_recodeChar h
    rw [← rereadChar_of_isUpper h, hc] at hlength
    cases hlength
  · exact fun h => if_neg h

namespace Literal

/-- Whatever is beyond ASCII stands for itself. -/
theorem Body.of_le {u b v : Text} (hu : ∀ c ∈ u, 0x80 ≤ c.toNat) (hb : Body b v) :
    Body (u ++ b) (u ++ v) := by
  induction u with
  | nil => exact hb
  | cons c u ih =>
    obtain ⟨hc, hu⟩ := List.forall_mem_cons.mp hu
    exact .char (ne_of_le_of_lt hc (by decide)) (ne_of_le_of_lt hc (by decide))
      (ne_of_le_of_lt hc (by decide)) (ih hu)

/-- How a character is written is of ASCII, unless it is one without an escape. -/
theorem lt_of_mem_guardParens {c : Char} (h : ¬ IsUpper c) :
    ∀ d ∈ guardParens (escapeChar c), d.toNat < 0x80 := by
  have hescape : ∀ d ∈ escapeChar c, d.toNat < 0x80 := by
    by_cases hs : IsShown c
    · rw [escapeChar_of_isShown hs, List.forall_mem_singleton]
      obtain ⟨-, hcontrol, hl⟩ := hs
      simp only [isControl, Bool.or_eq_false_iff, Bool.and_eq_false_iff, decide_eq_false_iff_not]
        at hcontrol
      simp only [IsUpper, IsLatin1] at h hl
      omega
    · obtain ⟨w, hw, -, hmem⟩ := exists_escape hs
      rw [hw, List.forall_mem_cons]
      refine ⟨by decide, ?_⟩
      intro d hd
      rcases hmem d hd with rfl | ha
      · decide
      · exact (Numeral.isRegular_of_isPart (by simp [Numeral.isPart, ha])).2
  intro d hd
  rcases mem_guardParens hd with rfl | hd
  · decide
  · exact hescape d hd

/-- **What stands between the parentheses, in UTF-8, is a body again**, and denotes what is reread.
-/
theorem body_recode {v : Text} (h : ∀ c ∈ v, c.toNat < 512) :
    Body (recode (guardParens (escape v))) (reread v) := by
  induction v with
  | nil => exact .nil
  | cons c v ih =>
    obtain ⟨hc, hv⟩ := List.forall_mem_cons.mp h
    rw [escape_cons, guardParens_append, recode_append, reread, List.flatMap_cons, ← reread]
    by_cases hu : IsUpper c
    · have hchar : guardParens (escapeChar c) = [c] := by
        rw [escapeChar_of_isShown hu.isShown]
        simp [guardParens, guardChar, ne_of_le_of_lt hu.1 (d := '(') (by decide),
          ne_of_le_of_lt hu.1 (d := ')') (by decide)]
      have hrecode : recode [c] = recodeChar c := by
        rw [recode_eq, List.flatMap_singleton]
      rw [hchar, hrecode, rereadChar_of_isUpper hu]
      exact Body.of_le hu.le_of_mem_recodeChar (ih hv)
    · rw [recode_of_forall_lt (lt_of_mem_guardParens hu), rereadChar, if_neg hu]
      exact body_guardChar hc (ih hv)

end Literal

/-! ## Tokens -/

/-- The value of a parenthesized string. -/
def Token.literal? (t : Token) : Option Text :=
  match t.kind with
  | .string .literal => some t.value
  | _ => none

/-- The values of the parenthesized strings among some tokens. -/
def literals (ts : List Token) : List Text := ts.filterMap Token.literal?

theorem spells_recode_literal {v : Text} (hv : ∀ c ∈ v, c.toNat < 512) (next : Option Char) :
    Spells (recode (Token.render ⟨.string .literal, v⟩)) next ⟨.string .literal, reread v⟩ := by
  have hrender : recode (Token.render ⟨.string .literal, v⟩) =
      '(' :: recode (guardParens (escape v)) ++ [')'] :=
    recode_delimited ['('] (by simp) (by simp) _
  rw [hrender]
  exact .inl (.literal (Literal.body_recode hv))

/-- What a token is rendered as is read as a token on its line, and as a parenthesized string just
if it was one. -/
theorem Token.WellFormed.exists_spells_recode {t : Token} (h : t.WellFormed)
    (hhex : t.NotMistaken) :
    ∃ u, Spells (recode t.render) (some '\n') u ∧ u.literal? = t.literal?.map reread := by
  have hends : EndsRun (some '\n') := endsRun_of_lineFeed fun c hc => (Option.some.inj hc).symm
  have regular : ∀ {v : Text}, (∀ c ∈ v, isRegular c = true) →
      ∀ c ∈ recode (escape v), isRegular c = true :=
    fun hv => isRegular_recode (isRegular_escape hv)
  have run : ∀ {v : Text}, v ≠ [] → (∀ c ∈ v, isRegular c = true) →
      ∃ u, Spells (recode (escape v)) (some '\n') u ∧ u.literal? = none := by
    intro v hne hv
    have hne : recode (escape v) ≠ [] := by
      rw [recode_eq]
      exact spares_recodeChar.ne_nil (spares_escapeChar.ne_nil hne)
    refine ⟨_, .inr (.run hne (regular hv) hends), ?_⟩
    rcases runKind_cases (recode (escape v)) with hk | ⟨form, hk⟩ <;> simp [Token.literal?, hk]
  cases h with
  | numeral h => exact run h.ne_nil fun c hc => (h.regular c hc).1
  | stray hc =>
    rcases hc with rfl | rfl
    · exact ⟨_, .inl .strayParenthesis, rfl⟩
    · exact ⟨_, .inr (.strayGreater (by decide)), rfl⟩
  | name hne hv => exact run hne fun c hc => (hv c hc).regular
  | @literalName v hv =>
    have hrender : recode (Token.render ⟨.literalName, v⟩) = '/' :: recode (escape v) :=
      recode_cons (by decide) _
    rw [hrender]
    exact ⟨_, .inr (.literalName (regular fun c hc => (hv c hc).regular) hends
      fun _ => by decide), rfl⟩
  | @immediateName v hv =>
    have hrender : recode (Token.render ⟨.immediateName, v⟩) = '/' :: '/' :: recode (escape v) := by
      rw [← recode_cons (by decide), ← recode_cons (by decide)]
      rfl
    rw [hrender]
    exact ⟨_, .inr (.immediateName (regular fun c hc => (hv c hc).regular) hends), rfl⟩
  | literal hv => exact ⟨_, spells_recode_literal (fun c hc => Nat.lt_succ_of_le (hv c hc)) _, rfl⟩
  | @hex v _ hv =>
    obtain ⟨hdictionary, hbase85⟩ := hhex rfl
    have hbody : HexBody v := ⟨fun hc => (hv _ hc).2.2 rfl, hdictionary, hbase85⟩
    have hrender : recode (Token.render ⟨.string .hex, v⟩) = '<' :: recode (escape v) ++ ['>'] :=
      recode_delimited ['<'] (by simp) (by simp) _
    have hrecode := spares_recodeChar.hexBody (spares_escapeChar.hexBody hbody)
    rw [← escape, ← recode_eq] at hrecode
    rw [hrender]
    exact ⟨_, .inl (.hex hrecode), rfl⟩
  | @base85 v _ hend =>
    have hrender : recode (Token.render ⟨.string .base85, v⟩) =
        '<' :: '~' :: recode (escape v) ++ base85End :=
      recode_delimited ['<', '~'] (by simp) (by simp) _
    have hrecode := spares_recodeChar.base85 (spares_escapeChar.base85 hend)
    rw [← escape, ← recode_eq] at hrecode
    rw [hrender]
    exact ⟨_, .inl (.base85 hrecode), rfl⟩
  | mark m =>
    have hrender : recode (Token.render ⟨.mark m, m.spelling⟩) = m.spelling := by cases m <;> rfl
    rw [hrender]
    exact ⟨_, .inl (.mark m), rfl⟩

/-! ## Lines -/

/-- A text is scanned in UTF-8 as some tokens, whatever gap stands before it. -/
def Text.ScansAs (t : Text) (ts : List Token) : Prop :=
  ∀ gap : List Byte, (∀ u, Gap.Fills (Byte.text gap) u) → Scans (gap ++ Text.utf8 t) ts

theorem scansAs_nil : ScansAs [] [] := by
  intro gap hg
  rw [Text.utf8, List.flatMap_nil, List.append_nil]
  exact scans_of_gap (hg [])

/-- A word before white space. -/
theorem Text.ScansAs.word {w rest : Text} {sep : Char} {t : Token} {ts : List Token}
    (h : ScansAs rest ts) (hs : Spells (recode w) (some sep) t) (hsep : isWhite sep = true) :
    ScansAs (w ++ sep :: rest) (t :: ts) := by
  have hlt : sep.toNat < 0x80 := by
    simp only [isWhite, Bool.or_eq_true, beq_iff_eq] at hsep
    rcases hsep with ((rfl | rfl) | rfl) | rfl <;> decide
  intro gap hg
  have hsplit : Text.utf8 (sep :: rest) = Text.utf8 [sep] ++ Text.utf8 rest :=
    Text.utf8_append [sep] rest
  have hblank : Byte.text (Text.utf8 [sep]) = [sep] := recode_cons hlt []
  have hrest : Scans (Text.utf8 (sep :: rest)) ts := by
    rw [hsplit]
    refine h _ fun u => ?_
    rw [hblank]
    exact .white hsep .nil
  have hhead : (Byte.text (Text.utf8 (sep :: rest))).head? = some sep := by
    rw [hsplit, Byte.text_append, hblank]
    rfl
  have hp : Piece.Fits ⟨gap, Text.utf8 w, t⟩ (Text.utf8 (sep :: rest)) := by
    refine ⟨hg _, ?_⟩
    rw [hhead]
    exact hs
  rw [Text.utf8_append, ← List.append_assoc]
  exact scans_cons hp hrest

/-- A name of ASCII is read as itself. -/
theorem spells_recode_name {w : Text} {sep : Char} (hsep : isWhite sep = true) (hne : w ≠ [])
    (hw : ∀ c ∈ w, isRegular c = true ∧ c.toNat < 0x80) (hk : runKind w = .name) :
    Spells (recode w) (some sep) ⟨.name, w⟩ := by
  have hends : EndsRun (some sep) := by
    rintro c ⟨⟩
    simp [isRegular, hsep]
  rw [recode_of_forall_lt fun c hc => (hw c hc).2, ← hk]
  exact .inr (.run hne (fun c hc => (hw c hc).1) hends)

/-- The name of a kind is a name. -/
theorem Kind.spells_label (k : Kind) :
    Spells (recode k.label.toList) (some ' ') ⟨.name, k.label.toList⟩ := by
  have hlabel : k.label.toList ≠ [] ∧
      (k.label.toList.all fun c => isRegular c && decide (c.toNat < 0x80)) = true ∧
      runKind k.label.toList = .name := by
    rcases k with _ | ⟨_ | _ | _⟩ | ⟨_ | _ | _⟩ | _ | _ | ⟨_ | _ | _ | _ | _ | _⟩
    all_goals decide
  obtain ⟨hne, hall, hkind⟩ := hlabel
  exact spells_recode_name rfl hne (by simpa using hall) hkind

/-- A place as a word: its line and its column. -/
def Location.word (l : Location) : Text := Nat.toDigits 10 l.line ++ ':' :: Nat.toDigits 10 l.column

/-- It is a name, since there is no numeral with a colon. -/
theorem Location.spells_word (l : Location) :
    Spells (recode l.word) (some '\t') ⟨.name, l.word⟩ := by
  have digits : ∀ n, ∀ c ∈ Nat.toDigits 10 n, isRegular c = true ∧ c.toNat < 0x80 := by
    intro n c hc
    have hd := Nat.isDigit_of_mem_toDigits (by decide) (by decide) hc
    exact Numeral.isRegular_of_isPart (Numeral.isPart_of_isDigit hd)
  refine spells_recode_name rfl (by simp [word]) ?_ (runKind_eq_name ?_)
  · exact List.forall_mem_append.mpr ⟨digits _, List.forall_mem_cons.mpr ⟨by decide, digits _⟩⟩
  · intro form h
    exact absurd (h.isPart ':' (by simp [word])) (by decide)

/-- The line of a record is read as tokens of which none but its own is a parenthesized string. -/
theorem Record.exists_scansAs {r : Record} (h : r.token.WellFormed)
    (hhex : r.token.NotMistaken) {rest : Text} {ts : List Token} (hrest : ScansAs rest ts) :
    ∃ us, literals us = (literals [r.token]).map reread ∧
      ScansAs (r.line ++ '\n' :: rest) (us ++ ts) := by
  obtain ⟨t, place⟩ := r
  obtain ⟨u, hu, hvalue⟩ := h.exists_spells_recode hhex
  have htold := (hrest.word hu rfl).word t.kind.spells_label rfl
  have hliterals : ∀ name : Text, literals [⟨.name, name⟩, u] = (literals [t]).map reread := by
    intro name
    have hname : Token.literal? ⟨.name, name⟩ = none := rfl
    cases ht : t.literal? <;> simp [literals, hname, hvalue, ht]
  cases place with
  | none =>
    refine ⟨[⟨.name, t.kind.label.toList⟩, u], hliterals _, ?_⟩
    rw [line_none, List.append_assoc]
    exact htold
  | some l =>
    refine ⟨[⟨.name, l.word⟩, ⟨.name, t.kind.label.toList⟩, u], hliterals t.kind.label.toList, ?_⟩
    have hline : line ⟨t, some l⟩ ++ '\n' :: rest =
        l.word ++ '\t' :: (t.kind.label.toList ++ ' ' :: (t.render ++ '\n' :: rest)) := by
      simp [line_some, Location.word]
    rw [hline]
    exact htold.word l.spells_word rfl

/-- So are lines, one after another. -/
theorem exists_scansAs_lines {records : List Record}
    (h : ∀ r ∈ records, r.token.WellFormed ∧ r.token.NotMistaken) :
    ∃ ts, literals ts = (literals (records.map Record.token)).map reread ∧
      ScansAs (unlines (records.map Record.line)) ts := by
  induction records with
  | nil => exact ⟨[], rfl, scansAs_nil⟩
  | cons r records ih =>
    obtain ⟨⟨hwf, hhex⟩, hrecords⟩ := List.forall_mem_cons.mp h
    obtain ⟨ts, hts, hrest⟩ := ih hrecords
    obtain ⟨us, hus, hscans⟩ := r.exists_scansAs hwf hhex hrest
    refine ⟨us ++ ts, ?_, ?_⟩
    · have hsplit : literals ((r :: records).map Record.token) =
          literals [r.token] ++ literals (records.map Record.token) :=
        List.filterMap_append (l := [r.token])
      rw [hsplit, List.map_append, ← hus, ← hts]
      exact List.filterMap_append
    · have hline : unlines ((r :: records).map Record.line) =
          r.line ++ '\n' :: unlines (records.map Record.line) := by
        simp [unlines]
      rw [hline]
      exact hscans

/-! ## The main statement -/

open Scanner

/-- What a scan of a dump finds in place of the parenthesized strings that were dumped. -/
theorem exists_tokenize_dump {input : Input} {scan : Scan} (h : (start input).Yields scan)
    (hhex : ∀ x ∈ scan.found, x.1.NotMistaken) (name : String) (showLocation : Bool)
    {reader : Input}
    (hreader : reader.Delivers (dump input name ⟨.text, showLocation⟩ .unlimited).written) :
    ∃ ts, tokenize reader = .ok ts ∧
      literals ts = (literals (scan.found.map Prod.fst)).map reread := by
  have hrecords : ∀ r ∈ scan.records showLocation, r.token.WellFormed ∧ r.token.NotMistaken := by
    rw [Scan.records, List.forall_mem_map]
    exact fun x hx => ⟨h.wellFormed x hx, hhex x hx⟩
  obtain ⟨ts, hts, hscans⟩ := exists_scansAs_lines hrecords
  rw [dump_of_yields h name _ (Sink.unlimited_hasRoom _)] at hreader
  simp only [Dump.full, Dump.flatten_lines] at hreader
  refine ⟨ts, tokenize_of_scans hreader (hscans [] fun _ => .nil), ?_⟩
  have htokens : (scan.records showLocation).map Record.token = scan.found.map Prod.fst := by
    rw [Scan.records, List.map_map]
    rfl
  rw [hts, htokens]

/-- **What is written of a parenthesized string in UTF-8 is one, with the same value but for the
upper half of Latin-1**: its characters are taken apart into those of their bytes. So the
parenthesized strings of a dump have the values of those that are dumped if there are no such
characters in them, and only then, unless the dump shows a hex string that is taken for something
else. -/
theorem tokenize_utf8_render :
    (∀ v : Text, (∀ c ∈ v, c.toNat ≤ 0x1FF) →
      (∀ input : Input, input.Delivers (Text.utf8 (Token.render ⟨.string .literal, v⟩)) →
        input.IsToken (Text.utf8 (Token.render ⟨.string .literal, v⟩))
          ⟨.string .literal, reread v⟩) ∧
      (reread v = v ↔ ∀ c ∈ v, ¬ IsUpper c)) ∧
    ∀ (input : Input) (scan : Scan), (start input).Yields scan →
      (∀ x ∈ scan.found, x.1.NotMistaken) →
      ∀ (name : String) (showLocation : Bool) (reader : Input),
        reader.Delivers (dump input name ⟨.text, showLocation⟩ .unlimited).written →
        ∃ ts, tokenize reader = .ok ts ∧
          literals ts = (literals (scan.found.map Prod.fst)).map reread ∧
          (literals ts = literals (scan.found.map Prod.fst) ↔
            ∀ v ∈ literals (scan.found.map Prod.fst), ∀ c ∈ v, ¬ IsUpper c) := by
  constructor
  · intro v hv
    refine ⟨?_, reread_eq_iff⟩
    intro input hi
    rw [isToken_iff hi]
    exact spells_recode_literal (fun c hc => Nat.lt_succ_of_le (hv c hc)) none
  · intro input scan h hhex name showLocation reader hreader
    obtain ⟨ts, ht, hts⟩ := exists_tokenize_dump h hhex name showLocation hreader
    refine ⟨ts, ht, hts, ?_⟩
    rw [hts]
    generalize literals (scan.found.map Prod.fst) = values
    have hmap := List.map_eq_map_iff (f := reread) (g := id) (l := values)
    rw [List.map_id] at hmap
    rw [hmap]
    exact forall₂_congr fun _ _ => reread_eq_iff

/-- A string of an e with an acute accent, in Latin-1. -/
def acuteString : Input := .ofBytes [0x28, 0xe9, 0x29]

/-- The accent is lost, and with it the letter. What is written by an escape stays. -/
theorem tokenize_utf8_acute :
    (∀ c ∈ ['\u00e9', '\u01ff'], c.toNat ≤ 0x1FF) ∧
      (Input.ofBytes [0x28, 0xc3, 0xa9, 0x5c, 0x37, 0x37, 0x37, 0x29]).IsToken
        [0x28, 0xc3, 0xa9, 0x5c, 0x37, 0x37, 0x37, 0x29]
        ⟨.string .literal, ['\u00c3', '\u00a9', '\u01ff']⟩ ∧
      (start acuteString).Yields ⟨[(⟨.string .literal, ['\u00e9']⟩, .start)], none⟩ ∧
      ∃ ts, tokenize (.ofBytes (dump acuteString "p" ⟨.text, true⟩ .unlimited).written) = .ok ts ∧
        literals ts = [['\u00c3', '\u00a9']] := by
  have hlt : ∀ c ∈ ['\u00e9', '\u01ff'], c.toNat ≤ 0x1FF := by simp
  have hplace : (start acuteString).read.after.tokenStart = .start := by decide +kernel
  have hyields : (start acuteString).Yields ⟨[(⟨.string .literal, ['\u00e9']⟩, .start)], none⟩ := by
    have hscan := Yields.token (s := start acuteString) (t := ⟨.string .literal, ['\u00e9']⟩)
      (by decide +kernel) (.ended (by decide +kernel))
    rwa [hplace] at hscan
  have htoken := (tokenize_utf8_render.1 _ hlt).1 _ (Input.delivers_ofBytes _)
  obtain ⟨ts, ht, hts, -⟩ := tokenize_utf8_render.2 _ _ hyields
    (by simp [Token.NotMistaken]) "p" true _ (Input.delivers_ofBytes _)
  exact ⟨hlt, htoken, hyields, ts, ht, hts⟩

end PageTokens
