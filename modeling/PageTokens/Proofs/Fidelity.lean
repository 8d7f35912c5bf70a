import Mathlib.Data.List.Basic
import PageTokens.Proofs.Repertoire

/-!
# Which tokens are read back

A token is read back if what it is rendered as is tokenized to it alone. Every parenthesized string
is, with codes up to 511. Of the other tokens it is only those whose value is shown without an
escape, and among them no hex string that begins with what makes its `<` another lexeme
(`tokenize_render_iff`).

Escapes do not cancel out. They make a value longer, with backslashes, letters and digits, which
are regular characters and no delimiters. So what has escapes in it is still read as a lexeme of its
kind, and the value of that lexeme is the longer one. A zero that completes the pairs of a hex
string only adds to it.
-/

namespace PageTokens

open Lexeme

/-! ## Texts written character by character -/

section Written

variable {f : Char → Text}

theorem flatMap_of_forall {t : Text} (h : ∀ c ∈ t, f c = [c]) : t.flatMap f = t :=
  (List.flatMap_congr h).trans (List.flatMap_singleton' t)

/-- What is written for a text is no shorter, if what is written for a character is the character
itself or is longer. -/
theorem length_le_flatMap (hf : ∀ c, f c = [c] ∨ 1 < (f c).length) (t : Text) :
    t.length ≤ (t.flatMap f).length := by
  induction t with
  | nil => exact Nat.le_refl _
  | cons c t ih =>
    have hc : 1 ≤ (f c).length := by
      rcases hf c with hc | hc
      · simp [hc]
      · exact Nat.le_of_lt hc
    rw [List.flatMap_cons, List.length_append, List.length_cons]
    omega

/-- So if it is not longer, each character of the text is written as itself. -/
theorem forall_of_length_flatMap_le (hf : ∀ c, f c = [c] ∨ 1 < (f c).length) {t : Text}
    (h : (t.flatMap f).length ≤ t.length) : ∀ c ∈ t, f c = [c] := by
  induction t with
  | nil => simp
  | cons c t ih =>
    rw [List.flatMap_cons, List.length_append, List.length_cons] at h
    have hle := length_le_flatMap hf t
    have hc : f c = [c] := (hf c).resolve_right (by omega)
    refine List.forall_mem_cons.mpr ⟨hc, ih ?_⟩
    rw [hc, List.length_singleton] at h
    omega

theorem flatMap_eq_iff (hf : ∀ c, f c = [c] ∨ 1 < (f c).length) {t : Text} :
    t.flatMap f = t ↔ ∀ c ∈ t, f c = [c] :=
  ⟨fun h => forall_of_length_flatMap_le hf (by rw [h]), flatMap_of_forall⟩

/-- A character keeps its places: it is written as itself, and never in place of another. -/
structure Keeps (f : Char → Text) (c : Char) : Prop where
  /-- it is written as itself -/
  itself : f c = [c]
  /-- what is not written as itself is written without it -/
  apart : ∀ d, f d = [d] ∨ f d ≠ [] ∧ c ∉ f d

theorem Keeps.mem_iff {c : Char} (h : Keeps f c) {t : Text} : c ∈ t.flatMap f ↔ c ∈ t := by
  rw [List.mem_flatMap]
  constructor
  · rintro ⟨d, hd, hc⟩
    rcases h.apart d with hs | ⟨-, hn⟩
    · rw [hs, List.mem_singleton] at hc
      exact hc ▸ hd
    · exact absurd hc hn
  · intro hc
    exact ⟨c, hc, by simp [h.itself]⟩

theorem Keeps.head?_iff {c : Char} (h : Keeps f c) {t : Text} :
    (t.flatMap f).head? = some c ↔ t.head? = some c := by
  cases t with
  | nil => exact Iff.rfl
  | cons d t =>
    rw [List.flatMap_cons]
    rcases h.apart d with hs | ⟨hne, hn⟩
    · rw [hs]
      exact Iff.rfl
    · obtain ⟨e, w, hw⟩ := List.exists_cons_of_ne_nil hne
      rw [hw, List.mem_cons, not_or] at hn
      rw [hw]
      refine iff_of_false ?_ ?_
      · rintro ⟨⟩
        exact hn.1 rfl
      · rintro ⟨⟩
        rw [h.itself] at hw
        exact hn.1 (List.cons.inj hw).1

/-- The characters that end strings in angle brackets, or make something else of them, keep their
places. -/
structure Spares (f : Char → Text) : Prop where
  /-- a second one makes a dictionary of a `<` -/
  less : Keeps f '<'
  /-- it ends a hex string -/
  greater : Keeps f '>'
  /-- it makes a base-85 string of a `<`, and ends one -/
  tilde : Keeps f '~'

theorem Spares.ne_nil (h : Spares f) {t : Text} (ht : t ≠ []) : t.flatMap f ≠ [] := by
  obtain ⟨c, t, rfl⟩ := List.exists_cons_of_ne_nil ht
  rw [List.flatMap_cons]
  rcases h.tilde.apart c with hc | ⟨hc, -⟩
  · simp [hc]
  · exact List.append_ne_nil_of_left_ne_nil hc _

theorem Spares.hexBody (h : Spares f) {b : Text} (hb : HexBody b) : HexBody (b.flatMap f) := by
  refine ⟨?_, ?_, ?_⟩
  · rw [h.greater.mem_iff]
    exact hb.unclosed
  · rw [Ne, h.less.head?_iff]
    exact hb.not_dictionary
  · rw [Ne, h.tilde.head?_iff]
    exact hb.not_base85

/-- What has no tilde in it is before the end of a base-85 string. -/
theorem base85End_infix_behind {e u : Text} (he : '~' ∉ e) (h : base85End <:+: e ++ u) :
    base85End <:+: u := by
  induction e with
  | nil => exact h
  | cons d e ih =>
    rw [List.mem_cons, not_or] at he
    rcases List.infix_cons_iff.mp h with hp | hi
    · exact absurd (List.cons_prefix_cons.mp hp).1 he.1
    · exact ih he.2 hi

theorem Spares.base85 (h : Spares f) {t : Text} (ht : ¬ base85End <:+: t) :
    ¬ base85End <:+: t.flatMap f := by
  induction t with
  | nil => exact ht
  | cons c t ih =>
    rw [List.infix_cons_iff, not_or] at ht
    rw [List.flatMap_cons]
    rcases h.tilde.apart c with hs | ⟨-, hn⟩
    · rw [hs, List.singleton_append, List.infix_cons_iff]
      rintro (⟨u, hu⟩ | hi)
      · -- a tilde, before what begins with `>` and did so before it was written
        obtain ⟨rfl, hbehind⟩ := List.cons.inj hu
        have hhead : (t.flatMap f).head? = some '>' := by
          rw [← hbehind]
          rfl
        obtain ⟨u, rfl⟩ := List.head?_eq_some_iff.mp (h.greater.head?_iff.mp hhead)
        exact ht.1 ⟨u, rfl⟩
      · exact ih ht.2 hi
    · intro hi
      exact ih ht.2 (base85End_infix_behind hn hi)

end Written

/-! ## What escapes are made of -/

/-- Where a character is not shown as itself, a backslash stands for it, with something behind it.
-/
theorem exists_escape {c : Char} (h : ¬ IsShown c) :
    ∃ w, escapeChar c = '\\' :: w ∧ w ≠ [] ∧ ∀ d ∈ w, d = '\\' ∨ d.isAlphanum = true := by
  have letter : ∀ d : Char, d = '\\' ∨ d.isAlphanum = true →
      ∃ w, ['\\', d] = '\\' :: w ∧ w ≠ [] ∧ ∀ d ∈ w, d = '\\' ∨ d.isAlphanum = true :=
    fun d hd => ⟨[d], rfl, by simp, by simpa using hd⟩
  unfold escapeChar
  repeat' split
  iterate 6 exact letter _ (by decide)
  · refine ⟨octalCode c.toNat, rfl, ?_, ?_⟩
    · have hlength : 3 ≤ (octalCode c.toNat).length := by
        rw [octalCode, List.length_leftpad]
        exact Nat.le_max_left ..
      exact List.ne_nil_of_length_pos (by omega)
    · intro d hd
      simp [Char.isAlphanum, isDigit_of_mem_octalCode d hd]
  · next hs hcode =>
    -- what is left is shown
    have hcode : needsCode c = false := by simpa using hcode
    obtain ⟨hcontrol, hbig⟩ := Bool.or_eq_false_iff.mp hcode
    exact absurd ⟨hs, hcontrol, Nat.lt_succ_of_le (Nat.not_lt.mp (of_decide_eq_false hbig))⟩ h

/-- An escape is longer than what it stands for. -/
theorem length_escapeChar {c : Char} (h : ¬ IsShown c) : 1 < (escapeChar c).length := by
  obtain ⟨w, hw, hne, -⟩ := exists_escape h
  have := List.length_pos_iff.mpr hne
  rw [hw, List.length_cons]
  omega

theorem escapeChar_eq_or_lt (c : Char) : escapeChar c = [c] ∨ 1 < (escapeChar c).length := by
  by_cases h : IsShown c
  · exact .inl (escapeChar_of_isShown h)
  · exact .inr (length_escapeChar h)

theorem escape_eq_of_length_le {t : Text} (h : (escape t).length ≤ t.length) : escape t = t :=
  flatMap_of_forall (forall_of_length_flatMap_le escapeChar_eq_or_lt h)

/-- A text is shown as it is if each of its characters is. -/
theorem escape_eq_iff {t : Text} : escape t = t ↔ ∀ c ∈ t, IsShown c := by
  refine ⟨?_, escape_of_isShown⟩
  intro h c hc
  by_contra hs
  have hlength := length_escapeChar hs
  rw [(flatMap_eq_iff escapeChar_eq_or_lt).mp h c hc] at hlength
  exact absurd hlength (Nat.lt_irrefl _)

/-- No delimiter comes in or goes out with an escape. -/
theorem keeps_escapeChar {c : Char} (hs : IsShown c) (hc : c.isAlphanum = false) :
    Keeps escapeChar c := by
  refine ⟨escapeChar_of_isShown hs, ?_⟩
  intro d
  by_cases hd : IsShown d
  · exact .inl (escapeChar_of_isShown hd)
  · obtain ⟨w, hw, -, hmem⟩ := exists_escape hd
    rw [hw, List.mem_cons, not_or]
    refine .inr ⟨List.cons_ne_nil _ _, hs.1, ?_⟩
    intro hm
    rcases hmem c hm with rfl | ha
    · exact hs.1 rfl
    · simp [hc] at ha

theorem spares_escapeChar : Spares escapeChar :=
  ⟨keeps_escapeChar (by decide) rfl, keeps_escapeChar (by decide) rfl,
    keeps_escapeChar (by decide) rfl⟩

/-- Escapes add regular characters alone. -/
theorem mem_escape {t : Text} {c : Char} (h : c ∈ escape t) : c ∈ t ∨ isRegular c = true := by
  obtain ⟨d, hd, hc⟩ := List.mem_flatMap.mp h
  by_cases hs : IsShown d
  · rw [escapeChar_of_isShown hs, List.mem_singleton] at hc
    exact .inl (hc ▸ hd)
  · obtain ⟨w, hw, -, hmem⟩ := exists_escape hs
    rw [hw] at hc
    right
    rcases List.mem_cons.mp hc with rfl | hc
    · rfl
    rcases hmem c hc with rfl | hc
    · rfl
    · exact (Numeral.isRegular_of_isPart (by simp [Numeral.isPart, hc])).1

theorem isRegular_escape {t : Text} (h : ∀ c ∈ t, isRegular c = true) :
    ∀ c ∈ escape t, isRegular c = true :=
  fun c hc => (mem_escape hc).elim (h c) id

/-- A zero at the end is all that is added to digits without white space. -/
theorem prefix_hexValue {b : Text} (h : ∀ c ∈ b, isWhite c = false) : b <+: hexValue b := by
  rw [hexValue_of_not_white h]
  split
  · exact List.prefix_refl b
  · exact List.prefix_append b ['0']

/-! ## What is read of a rendered token -/

/-- A hex string does not begin with what would make its `<` the beginning of something else. -/
def Token.NotMistaken (t : Token) : Prop :=
  t.kind = .string .hex → t.value.head? ≠ some '<' ∧ t.value.head? ≠ some '~'

section Rendered

variable {t : Token} {input : Input} (hi : input.Delivers (Byte.ofText t.render))
  (ht : tokenize input = .ok [t])
include hi ht

/-- If a token is read back, there is no other whose lexeme begins what it is rendered as. -/
theorem eq_of_front {l u : Text} (hr : t.render = l ++ u) {t' : Token}
    (hs : Spells l u.head? t') : t' = t := by
  have htext : Byte.text (Byte.ofText t.render) = l ++ u := by
    rw [Byte.text_ofText (isLatin1_render t), hr]
  have hfront := answer_of_front hi htext hs
  rw [answer_of_tokenize ht] at hfront
  exact (Answer.token.inj hfront).symm

theorem eq_of_whole {t' : Token} (hs : Spells t.render none t') : t' = t :=
  eq_of_front hi ht (List.append_nil _).symm hs

/-- A hex string that is read back is not taken for a dictionary or for a base-85 string. -/
theorem notMistaken_of_tokenize : t.NotMistaken := by
  intro hk
  have hrender : t.render = '<' :: escape t.value ++ ['>'] := by simp only [Token.render, hk]
  have front : ∀ c, Keeps escapeChar c → t.value.head? = some c →
      ∃ u, t.render = '<' :: c :: (u ++ ['>']) := by
    intro c hc hv
    obtain ⟨u, hu⟩ := List.head?_eq_some_iff.mp (hc.head?_iff.mpr hv)
    rw [← escape] at hu
    exact ⟨u, by rw [hrender, hu]; rfl⟩
  constructor
  · intro hv
    obtain ⟨u, hu⟩ := front '<' spares_escapeChar.less hv
    have hmark := eq_of_front hi ht (l := ['<', '<']) hu (.inl (.mark .dictionaryStart))
    rw [← hmark] at hk
    cases hk
  · intro hv
    obtain ⟨u, hu⟩ := front '~' spares_escapeChar.tilde hv
    obtain ⟨l, v, w, hlv, hs⟩ := exists_spells_base85 (u ++ ['>'])
    have hbase85 := eq_of_front hi ht (hu.trans hlv) hs
    rw [← hbase85] at hk
    cases hk

/-- What is read back has no escapes in it, unless it is a parenthesized string. -/
theorem escape_eq_of_tokenize (h : t.WellFormed) (hk : t.kind ≠ .string .literal) :
    escape t.value = t.value := by
  have run : t.value ≠ [] → (∀ c ∈ t.value, isRegular c = true) → t.render = escape t.value →
      escape t.value = t.value := by
    intro hne hv hr
    have hrun : Spells t.render none ⟨runKind (escape t.value), escape t.value⟩ := by
      rw [hr]
      exact .inr (.run (spares_escapeChar.ne_nil hne) (isRegular_escape hv) endsRun_none)
    exact congrArg Token.value (eq_of_whole hi ht hrun)
  cases h with
  | numeral h => exact run h.ne_nil (fun c hc => (h.regular c hc).1) rfl
  | stray hc => rcases hc with rfl | rfl <;> rfl
  | name hne hv => exact run hne (fun c hc => (hv c hc).regular) rfl
  | literalName hv =>
    have hname := Open.literalName (isRegular_escape fun c hc => (hv c hc).regular) endsRun_none
      (fun _ => by simp)
    exact congrArg Token.value (eq_of_whole hi ht (.inr hname))
  | immediateName hv =>
    have hname := Open.immediateName (isRegular_escape fun c hc => (hv c hc).regular) endsRun_none
    exact congrArg Token.value (eq_of_whole hi ht (.inr hname))
  | literal => exact absurd rfl hk
  | @hex value _ hv =>
    obtain ⟨hdictionary, hbase85⟩ := notMistaken_of_tokenize hi ht rfl
    have hclose : '>' ∉ value := fun hc => (hv _ hc).2.2 rfl
    have hwhite : ∀ c ∈ escape value, isWhite c = false := by
      intro c hc
      exact (mem_escape hc).elim (fun hc => (hv c hc).2.1) fun hr => (isRegular_iff.mp hr).1
    have hhex := Closed.hex (spares_escapeChar.hexBody ⟨hclose, hdictionary, hbase85⟩)
    have hvalue : hexValue (escape value) = value :=
      congrArg Token.value (eq_of_whole hi ht (.inl hhex))
    -- the value is not shorter than its escapes
    have hle := (prefix_hexValue hwhite).length_le
    rw [hvalue] at hle
    exact escape_eq_of_length_le hle
  | base85 _ hend =>
    have hbase85 := Closed.base85 (spares_escapeChar.base85 hend)
    exact congrArg Token.value (eq_of_whole hi ht (.inl hbase85))
  | mark m => cases m <;> rfl

end Rendered

/-! ## The main statement -/

/-- **A token is read back if its value needs no escapes**, and only then, unless it is a
parenthesized string; and a hex string must not begin with what makes its `<` another lexeme. A
value needs escapes for its backslashes and control characters. -/
theorem tokenize_render_iff {t : Token} (h : t.Occurs) (hk : t.kind ≠ .string .literal) :
    (∀ c ∈ t.render, IsLatin1 c) ∧
      (∀ input : Input, input.Delivers (Byte.ofText t.render) →
        (tokenize input = .ok [t] ↔ escape t.value = t.value ∧ t.NotMistaken)) ∧
      (escape t.value = t.value ↔ ∀ c ∈ t.value, c ≠ '\\' ∧ isControl c = false) := by
  have hwf := h.wellFormed
  refine ⟨isLatin1_render t, ?_, ?_⟩
  · intro input hi
    constructor
    · intro ht
      exact ⟨escape_eq_of_tokenize hi ht hwf hk, notMistaken_of_tokenize hi ht⟩
    · rintro ⟨hescape, hhex⟩
      obtain ⟨l, hl, hspells⟩ := hwf.exists_spells
      have hshown := escape_eq_iff.mp hescape
      have hrender : Spells t.render none t := by
        refine hspells.render hl ⟨?_, hhex⟩ (by simp)
        intro _ c hc
        exact ⟨(hshown c hc).1, (hshown c hc).2.1⟩
      rw [← Byte.text_ofText (isLatin1_render t)] at hrender
      exact tokenize_of_scans hi (scans_of_spells hrender)
  · rw [escape_eq_iff]
    constructor
    · intro hshown c hc
      exact ⟨(hshown c hc).1, (hshown c hc).2.1⟩
    · intro hv c hc
      exact ⟨(hv c hc).1, (hv c hc).2, hwf.isLatin1 hk c hc⟩

/-- `< <4>`, where the blank keeps the second `<` from making a dictionary of the first. -/
def hexAngle : Input := .ofBytes [0x3c, 0x20, 0x3c, 0x34, 0x3e]

/-- `<~~~>`, where the first tilde is needed for the `<` and the last for the `>`. -/
def base85Tilde : Input := .ofBytes [0x3c, 0x7e, 0x7e, 0x7e, 0x3e]

/-- Without the blank the hex string is read otherwise. The base-85 string is read back. -/
theorem tokenize_render_hexAngle :
    (⟨.string .hex, ['<', '4']⟩ : Token).Occurs ∧
      tokenize (.ofBytes [0x3c, 0x3c, 0x34, 0x3e]) ≠ .ok [⟨.string .hex, ['<', '4']⟩] ∧
      (⟨.string .base85, ['~']⟩ : Token).Occurs ∧
      tokenize base85Tilde = .ok [⟨.string .base85, ['~']⟩] := by
  have hhex : (⟨.string .hex, ['<', '4']⟩ : Token).Occurs := ⟨hexAngle, 0, by decide +kernel⟩
  have hbase85 : (⟨.string .base85, ['~']⟩ : Token).Occurs := ⟨base85Tilde, 0, by decide +kernel⟩
  refine ⟨hhex, ?_, hbase85, ?_⟩
  · intro h
    have hiff := (tokenize_render_iff hhex (by decide)).2.1 _ (Input.delivers_ofBytes _)
    exact ((hiff.mp h).2 rfl).1 rfl
  · have hiff := (tokenize_render_iff hbase85 (by decide)).2.1 _ (Input.delivers_ofBytes _)
    exact hiff.mpr ⟨rfl, by simp [Token.NotMistaken]⟩

end PageTokens
