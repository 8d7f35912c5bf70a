import PageTokens.Proofs.Consumers
import PageTokens.Proofs.Vocabulary
import PageTokens.Proofs.Whole

/-!
# Which tokens can be read

Not every kind goes with every value. `Token.WellFormed` says kind by kind which values there are,
in terms of their characters, and these are just the tokens that some source is read as
(`occurs_iff`).

In one direction the grammar is asked what it says of the values of lexemes. In the other a lexeme
is written down for each token. The value itself will not always do: a hex string whose value begins
with what would make its `<` another lexeme is written with a blank in front of it.
-/

namespace PageTokens

/-! ## Well-formed tokens -/

/-- A character that names may have: it is regular, and the character of a byte. -/
structure IsNameChar (c : Char) : Prop where
  /-- it neither separates nor delimits -/
  regular : isRegular c = true
  /-- a byte stands for it -/
  latin1 : IsLatin1 c

/-- The values that go with each kind. -/
inductive Token.WellFormed : Token → Prop
  /-- a numeral of its form -/
  | numeral {form : Numeral} {value : Text} :
      form.Matches value → WellFormed ⟨.numeral form, value⟩
  /-- a delimiter that closes nothing -/
  | stray {c : Char} : c = ')' ∨ c = '>' → WellFormed ⟨.name, [c]⟩
  /-- a run of regular characters that is no numeral -/
  | name {value : Text} : value ≠ [] → (∀ c ∈ value, IsNameChar c) →
      (∀ form, ¬ Numeral.Matches form value) → WellFormed ⟨.name, value⟩
  /-- any run of regular characters, also an empty one -/
  | literalName {value : Text} :
      (∀ c ∈ value, IsNameChar c) → WellFormed ⟨.literalName, value⟩
  /-- any run of regular characters, also an empty one -/
  | immediateName {value : Text} :
      (∀ c ∈ value, IsNameChar c) → WellFormed ⟨.immediateName, value⟩
  /-- characters of bytes and of octal codes -/
  | literal {value : Text} : (∀ c ∈ value, c.toNat ≤ 0x1FF) → WellFormed ⟨.string .literal, value⟩
  /-- characters of bytes, as many as make pairs, without white space and without the end -/
  | hex {value : Text} : value.length % 2 = 0 →
      (∀ c ∈ value, IsLatin1 c ∧ isWhite c = false ∧ c ≠ '>') → WellFormed ⟨.string .hex, value⟩
  /-- characters of bytes without the end among them -/
  | base85 {value : Text} : (∀ c ∈ value, IsLatin1 c) → ¬ Lexeme.base85End <:+: value →
      WellFormed ⟨.string .base85, value⟩
  /-- the spelling of a marker -/
  | mark (m : Mark) : WellFormed ⟨.mark m, m.spelling⟩

theorem isLatin1_spelling (m : Mark) : ∀ c ∈ m.spelling, IsLatin1 c := by
  cases m <;> simp [Mark.spelling, IsLatin1]

namespace Token.WellFormed

variable {t : Token}

/-- Only parenthesized strings have characters beyond those of bytes. -/
theorem isLatin1 (h : t.WellFormed) (hk : t.kind ≠ .string .literal) :
    ∀ c ∈ t.value, IsLatin1 c := by
  cases h with
  | numeral h => exact fun c hc => Nat.lt_trans (h.regular c hc).2 (by decide)
  | stray hc => rcases hc with rfl | rfl <;> simp [IsLatin1]
  | name _ hv => exact fun c hc => (hv c hc).latin1
  | literalName hv => exact fun c hc => (hv c hc).latin1
  | immediateName hv => exact fun c hc => (hv c hc).latin1
  | literal => exact absurd rfl hk
  | hex _ hv => exact fun c hc => (hv c hc).1
  | base85 hv => exact hv
  | mark m => exact isLatin1_spelling m

/-- No value has a character beyond the octal codes. -/
theorem lt (h : t.WellFormed) : ∀ c ∈ t.value, c.toNat < 512 := by
  by_cases hk : t.kind = .string .literal
  · cases h with
    | literal hv => exact fun c hc => Nat.lt_succ_of_le (hv c hc)
    | _ => cases hk
  · exact fun c hc => Nat.lt_trans (h.isLatin1 hk c hc) (by decide)

end Token.WellFormed

/-! ## What is read is well-formed -/

namespace Lexeme

theorem runKind_eq_numeral {t : Text} {form : Numeral} (h : form.Matches t) :
    runKind t = .numeral form := by
  rw [runKind, Numeral.classify?_eq_some_iff.mpr h]

theorem runKind_eq_name {t : Text} (h : ∀ form, ¬ Numeral.Matches form t) : runKind t = .name := by
  unfold runKind
  split
  · next form hform => exact absurd (Numeral.classify?_eq_some_iff.mp hform) (h form)
  · rfl

/-- A run of regular characters is well-formed, as a numeral or as a name. -/
theorem wellFormed_run {t : Text} (hne : t ≠ []) (ht : ∀ c ∈ t, IsNameChar c) :
    Token.WellFormed ⟨runKind t, t⟩ := by
  by_cases hform : ∃ form, Numeral.Matches form t
  · obtain ⟨form, hform⟩ := hform
    rw [runKind_eq_numeral hform]
    exact .numeral hform
  · have hnone := not_exists.mp hform
    rw [runKind_eq_name hnone]
    exact .name hne ht hnone

theorem wellFormed_hex {b : Text} (hb : HexBody b) (hl : ∀ c ∈ b, IsLatin1 c) :
    Token.WellFormed ⟨.string .hex, hexValue b⟩ := by
  refine .hex (length_hexValue b) ?_
  intro c hc
  refine ⟨isLatin1_hexValue hl c hc, ?_⟩
  rcases mem_hexValue hc with ⟨hmem, hw⟩ | rfl
  · exact ⟨hw, ne_of_mem_of_not_mem hmem hb.unclosed⟩
  · decide

theorem Closed.wellFormed {l : Text} {t : Token} (h : Closed l t) (hl : ∀ c ∈ l, IsLatin1 c) :
    t.WellFormed := by
  cases h with
  | mark m => exact .mark m
  | strayParenthesis => exact .stray (.inl rfl)
  | literal hb =>
    refine .literal fun c hc => Nat.le_of_lt_succ (hb.lt ?_ c hc)
    intro d hd
    exact Nat.lt_trans (hl d (by simp [hd])) (by decide)
  | hex hb => exact wellFormed_hex hb fun c hc => hl c (by simp [hc])
  | base85 hv => exact .base85 (fun c hc => hl c (by simp [show c ∈ _ from hc])) hv

theorem Open.wellFormed {l : Text} {next : Option Char} {t : Token} (h : Open l next t)
    (hl : ∀ c ∈ l, IsLatin1 c) : t.WellFormed := by
  cases h with
  | run hne ht => exact wellFormed_run hne fun c hc => ⟨ht c hc, hl c hc⟩
  | literalName ht => exact .literalName fun c hc => ⟨ht c hc, hl c (by simp [hc])⟩
  | immediateName ht => exact .immediateName fun c hc => ⟨ht c hc, hl c (by simp [hc])⟩
  | strayGreater => exact .stray (.inr rfl)
  | hex hb => exact wellFormed_hex hb fun c hc => hl c (by simp [hc])
  | base85 hv => exact .base85 (fun c hc => hl c (by simp [hc])) hv

end Lexeme

/-- **What is read is well-formed**, whatever source it is read from. -/
theorem Scanner.wellFormed_of_answer {s : Scanner} {t : Token} (h : s.read.answer = .token t) :
    t.WellFormed := by
  obtain ⟨p, rest, hp, rfl⟩ := exists_piece_of_token h
  rcases hp.spells with hc | ho
  · exact hc.wellFormed Byte.isLatin1_of_mem_text
  · exact ho.wellFormed Byte.isLatin1_of_mem_text

theorem Scanner.Yields.wellFormed {s : Scanner} {scan : Scan} (h : s.Yields scan) :
    ∀ x ∈ scan.found, x.1.WellFormed := by
  induction h with
  | ended => simp
  | error => simp
  | token ha _ ih => exact List.forall_mem_cons.mpr ⟨wellFormed_of_answer ha, ih⟩

/-- The value of a token that is found has no character beyond the octal codes. -/
theorem Scanner.Yields.lt {s : Scanner} {scan : Scan} (h : s.Yields scan) :
    ∀ x ∈ scan.found, ∀ c ∈ x.1.value, c.toNat < 512 :=
  fun x hx => (h.wellFormed x hx).lt

/-! ## What is well-formed can be read -/

namespace Lexeme

theorem endsRun_none : EndsRun none := by simp [EndsRun]

/-- A blank before digits that are pairs already does not belong to the value. -/
theorem hexValue_blank {v : Text} (hl : v.length % 2 = 0) (hw : ∀ c ∈ v, isWhite c = false) :
    hexValue (' ' :: v) = v := by
  have hblank : hexValue (' ' :: v) = hexValue v := by
    rw [hexValue, List.filter_cons_of_neg (by decide), hexValue]
  rw [hblank, hexValue_of_not_white hw, if_pos hl]

end Lexeme

open Lexeme

/-- A lexeme for a well-formed token, before the end of the input. -/
theorem Token.WellFormed.exists_spells {t : Token} (h : t.WellFormed) :
    ∃ l, (∀ c ∈ l, IsLatin1 c) ∧ Spells l none t := by
  cases h with
  | @numeral form value h =>
    have hrun := Open.run h.ne_nil (fun c hc => (h.regular c hc).1) endsRun_none
    rw [runKind_eq_numeral h] at hrun
    exact ⟨value, fun c hc => Nat.lt_trans (h.regular c hc).2 (by decide), .inr hrun⟩
  | stray hc =>
    rcases hc with rfl | rfl
    · exact ⟨[')'], by simp [IsLatin1], .inl .strayParenthesis⟩
    · exact ⟨['>'], by simp [IsLatin1], .inr (.strayGreater (by simp))⟩
  | @name value hne hv hnone =>
    have hrun := Open.run hne (fun c hc => (hv c hc).regular) endsRun_none
    rw [runKind_eq_name hnone] at hrun
    exact ⟨value, fun c hc => (hv c hc).latin1, .inr hrun⟩
  | @literalName value hv =>
    refine ⟨'/' :: value, ?_, .inr (.literalName ?_ endsRun_none (by simp))⟩
    · exact List.forall_mem_cons.mpr ⟨by decide, fun c hc => (hv c hc).latin1⟩
    · exact fun c hc => (hv c hc).regular
  | @immediateName value hv =>
    refine ⟨'/' :: '/' :: value, ?_, .inr (.immediateName ?_ endsRun_none)⟩
    · exact List.forall_mem_cons.mpr ⟨by decide,
        List.forall_mem_cons.mpr ⟨by decide, fun c hc => (hv c hc).latin1⟩⟩
    · exact fun c hc => (hv c hc).regular
  | @literal value hv =>
    have hbody := Literal.body_guardParens fun c hc => Nat.lt_succ_of_le (hv c hc)
    exact ⟨_, isLatin1_render ⟨.string .literal, value⟩, .inl (.literal hbody)⟩
  | @hex value hl hv =>
    have hvalue := hexValue_blank hl fun c hc => (hv c hc).2.1
    have hclose : '>' ∉ ' ' :: value := by
      rw [List.mem_cons, not_or]
      exact ⟨by decide, fun hc => (hv _ hc).2.2 rfl⟩
    have hhex := Closed.hex ⟨hclose, by simp, by simp⟩
    rw [hvalue] at hhex
    refine ⟨_, ?_, .inl hhex⟩
    simp only [List.cons_append, List.forall_mem_cons, List.forall_mem_append]
    exact ⟨by decide, by decide, fun c hc => (hv c hc).1, by simp [IsLatin1]⟩
  | @base85 value hv hend =>
    refine ⟨_, ?_, .inl (.base85 hend)⟩
    simp only [List.cons_append, List.forall_mem_cons, List.forall_mem_append]
    exact ⟨by decide, by decide, hv, by simp [base85End, IsLatin1]⟩
  | mark m => exact ⟨m.spelling, isLatin1_spelling m, .inl (.mark m)⟩

/-- Some input is a well-formed token as a whole. -/
theorem Token.WellFormed.exists_isToken {t : Token} (h : t.WellFormed) :
    ∃ bytes, ∀ input : Input, input.Delivers bytes → input.IsToken bytes t := by
  obtain ⟨l, hl, hspells⟩ := h.exists_spells
  refine ⟨Byte.ofText l, ?_⟩
  intro input hi
  rw [isToken_iff hi, Byte.text_ofText hl]
  exact hspells

/-! ## The main statement -/

/-- A token occurs if one of the reads of some source answers with it. -/
def Token.Occurs (t : Token) : Prop :=
  ∃ (input : Input) (n : Nat), (Session.behind (.start input) n).read.answer = .token t

theorem Token.Occurs.wellFormed {t : Token} (h : t.Occurs) : t.WellFormed := by
  obtain ⟨input, n, ha⟩ := h
  exact Scanner.wellFormed_of_answer ha

theorem Input.IsToken.occurs {input : Input} {bytes : List Byte} {t : Token}
    (h : input.IsToken bytes t) : t.Occurs :=
  ⟨input, 0, answer_of_tokenize h.tokens⟩

/-- **The tokens that can be read are the well-formed ones**, and each of them is the whole of some
input. -/
theorem occurs_iff (t : Token) :
    (t.Occurs ↔ t.WellFormed) ∧
      ((∃ bytes, ∀ input : Input, input.Delivers bytes → input.IsToken bytes t) ↔
        t.WellFormed) := by
  have hwhole : (∃ bytes, ∀ input : Input, input.Delivers bytes → input.IsToken bytes t) →
      t.Occurs := by
    rintro ⟨bytes, h⟩
    exact (h _ (Input.delivers_ofBytes bytes)).occurs
  refine ⟨⟨Token.Occurs.wellFormed, ?_⟩, ⟨fun h => (hwhole h).wellFormed, ?_⟩⟩
  · intro h
    exact hwhole h.exists_isToken
  · intro h
    exact h.exists_isToken

end PageTokens
