import Mathlib.Computability.RegularExpressions
import PageTokens.Proofs.Grammar.Numeral

/-!
# Numerals as regular expressions

The forms of numerals are regular languages, and are usually given by expressions: `-?[0-9]+` for
integers, `-?[0-9]*\.[0-9]+([eE][+-]?[0-9]+)?` for reals, `[0-9]+#[0-9A-Za-z]+` for radix numerals.
Here these are expressions in the sense of formal languages (`Numeral.expression`), and the texts
that match a form part by part are the words of its language (`mem_language_iff`).

Every star is over a class of characters (`IsClass`), and its words are then the texts of such
characters. Nothing else about stars is needed.
-/

namespace PageTokens.Numeral

open RegularExpression Computability

/-! ## Expressions -/

/-- One of the characters from a first one to a last one, `[a-b]`. -/
def between (first last : Char) : RegularExpression Char :=
  ((List.range' first.toNat (last.toNat + 1 - first.toNat)).map fun n => char (Char.ofNat n)).sum

/-- Something or nothing, `P?`. -/
def optional (P : RegularExpression Char) : RegularExpression Char := 1 + P

/-- Something at least once, `P+`. -/
def repeated (P : RegularExpression Char) : RegularExpression Char := P * star P

/-- `[0-9]` -/
def digit : RegularExpression Char := between '0' '9'

/-- `[0-9A-Za-z]` -/
def alphanumeric : RegularExpression Char := between '0' '9' + between 'A' 'Z' + between 'a' 'z'

/-- `[eE][+-]?[0-9]+` -/
def power : RegularExpression Char :=
  (char 'e' + char 'E') * (optional (char '+' + char '-') * repeated digit)

/-- The expression of a form. -/
def expression : Numeral → RegularExpression Char
  | .integer => optional (char '-') * repeated digit
  | .real => optional (char '-') * (star digit * (char '.' * (repeated digit * optional power)))
  | .radix => repeated digit * (char '#' * repeated alphanumeric)

/-- The texts of a form. -/
def language (form : Numeral) : Language Char := form.expression.matches'

/-! ## Classes of characters -/

/-- An expression for the single characters of a sort. -/
def IsClass (P : RegularExpression Char) (p : Char → Prop) : Prop :=
  ∀ t, t ∈ P.matches' ↔ ∃ c, t = [c] ∧ p c

theorem isClass_char (a : Char) : IsClass (char a) (· = a) := by
  intro t
  rw [matches'_char]
  constructor
  · intro h
    exact ⟨a, h, rfl⟩
  · rintro ⟨c, rfl, rfl⟩
    rfl

theorem IsClass.add {P Q : RegularExpression Char} {p q : Char → Prop} (hP : IsClass P p)
    (hQ : IsClass Q q) : IsClass (P + Q) fun c => p c ∨ q c := by
  intro t
  rw [matches'_add, Language.mem_add, hP t, hQ t]
  simp only [and_or_left, exists_or]

theorem IsClass.congr {P : RegularExpression Char} {p q : Char → Prop} (h : IsClass P p)
    (hpq : ∀ c, p c ↔ q c) : IsClass P q := by
  intro t
  simp only [h t, hpq]

/-- The words of a starred class are the texts of its characters. -/
theorem IsClass.mem_star {P : RegularExpression Char} {p : Char → Prop} (h : IsClass P p) {t : Text} :
    t ∈ (star P).matches' ↔ ∀ c ∈ t, p c := by
  rw [matches'_star, Language.mem_kstar]
  constructor
  · rintro ⟨words, rfl, hwords⟩ c hc
    obtain ⟨word, hword, hc⟩ := List.mem_flatten.mp hc
    obtain ⟨d, rfl, hd⟩ := (h word).mp (hwords word hword)
    exact List.mem_singleton.mp hc ▸ hd
  · intro ht
    refine ⟨t.map fun c => [c], ?_, ?_⟩
    · rw [← List.flatMap_def, List.flatMap_singleton']
    · intro word hword
      obtain ⟨c, hc, rfl⟩ := List.mem_map.mp hword
      exact (h [c]).mpr ⟨c, rfl, ht c hc⟩

theorem IsClass.mem_repeated {P : RegularExpression Char} {p : Char → Prop} (h : IsClass P p)
    {t : Text} : t ∈ (repeated P).matches' ↔ t ≠ [] ∧ ∀ c ∈ t, p c := by
  rw [repeated, matches'_mul, Language.mem_mul]
  constructor
  · rintro ⟨first, hfirst, others, hothers, rfl⟩
    obtain ⟨c, rfl, hc⟩ := (h first).mp hfirst
    exact ⟨by simp, List.forall_mem_cons.mpr ⟨hc, h.mem_star.mp hothers⟩⟩
  · rintro ⟨hne, ht⟩
    obtain ⟨c, t, rfl⟩ := List.exists_cons_of_ne_nil hne
    obtain ⟨hc, ht⟩ := List.forall_mem_cons.mp ht
    exact ⟨[c], (h [c]).mpr ⟨c, rfl, hc⟩, t, h.mem_star.mpr ht, rfl⟩

theorem mem_optional {P : RegularExpression Char} {t : Text} :
    t ∈ (optional P).matches' ↔ t = [] ∨ t ∈ P.matches' := by
  rw [optional, matches'_add, Language.mem_add, matches'_epsilon, Language.mem_one]

theorem mem_matches'_sum {Ps : List (RegularExpression Char)} {t : Text} :
    t ∈ Ps.sum.matches' ↔ ∃ P ∈ Ps, t ∈ P.matches' := by
  induction Ps with
  | nil => simp [Language.notMem_zero]
  | cons P Ps ih => rw [List.sum_cons, matches'_add, Language.mem_add, ih, List.exists_mem_cons_iff]

/-- A range of ASCII is a class: its characters are told by their codes. -/
theorem isClass_between (first : Char) {last : Char} (h : last.toNat < 0x80) :
    IsClass (between first last) fun c => first.toNat ≤ c.toNat ∧ c.toNat ≤ last.toNat := by
  intro t
  rw [between, mem_matches'_sum]
  constructor
  · rintro ⟨P, hP, ht⟩
    obtain ⟨n, hn, rfl⟩ := List.mem_map.mp hP
    obtain ⟨hlow, hhigh⟩ := List.mem_range'_1.mp hn
    have hvalid : n.isValidChar := .inl (by omega)
    have hcode : (Char.ofNat n).toNat = n := by
      rw [Char.ofNat, dif_pos hvalid]
      rfl
    exact ⟨Char.ofNat n, ht, by omega⟩
  · rintro ⟨c, rfl, hlow, hhigh⟩
    refine ⟨char (Char.ofNat c.toNat), List.mem_map_of_mem (List.mem_range'_1.mpr (by omega)), ?_⟩
    rw [Char.ofNat_toNat]
    rfl

theorem isClass_digit : IsClass digit fun c => c.isDigit = true := by
  refine (isClass_between '0' (by decide)).congr ?_
  intro c
  simp only [Char.isDigit, Bool.and_eq_true, decide_eq_true_eq]
  exact Iff.rfl

theorem isClass_alphanumeric : IsClass alphanumeric fun c => c.isAlphanum = true := by
  refine (((isClass_between '0' (by decide)).add (isClass_between 'A' (by decide))).add
    (isClass_between 'a' (by decide))).congr ?_
  intro c
  have hupper : c.isUpper = true ↔ 'A'.toNat ≤ c.toNat ∧ c.toNat ≤ 'Z'.toNat := decide_eq_true_iff
  have hlower : c.isLower = true ↔ 'a'.toNat ≤ c.toNat ∧ c.toNat ≤ 'z'.toNat :=
    Bool.and_eq_true_iff.trans (and_congr decide_eq_true_iff decide_eq_true_iff)
  have hdigit : c.isDigit = true ↔ '0'.toNat ≤ c.toNat ∧ c.toNat ≤ '9'.toNat :=
    Bool.and_eq_true_iff.trans (and_congr decide_eq_true_iff decide_eq_true_iff)
  have hletter : c.isAlpha = true ↔ c.isUpper = true ∨ c.isLower = true := Bool.or_eq_true_iff
  have hall : c.isAlphanum = true ↔ c.isAlpha = true ∨ c.isDigit = true := Bool.or_eq_true_iff
  rw [hall, hletter, hupper, hlower, hdigit]
  exact or_assoc.trans or_comm

/-! ## The languages of the forms -/

theorem mem_repeated_digit {t : Text} : t ∈ (repeated digit).matches' ↔ Digits t :=
  isClass_digit.mem_repeated.trans ⟨fun h => ⟨h.1, h.2⟩, fun h => ⟨h.ne_nil, h.all⟩⟩

theorem mem_minus {sign : Text} : sign ∈ (optional (char '-')).matches' ↔ sign ∈ [[], ['-']] := by
  rw [mem_optional, matches'_char]
  simp only [List.mem_cons, List.not_mem_nil, or_false]
  exact Iff.rfl

theorem mem_sign {sign : Text} :
    sign ∈ (optional (char '+' + char '-')).matches' ↔ sign ∈ [[], ['+'], ['-']] := by
  rw [mem_optional, matches'_add, Language.mem_add, matches'_char, matches'_char]
  simp only [List.mem_cons, List.not_mem_nil, or_false]
  exact Iff.rfl

theorem mem_optional_power {t : Text} : t ∈ (optional power).matches' ↔ Exponent t := by
  have hletter := (isClass_char 'e').add (isClass_char 'E')
  rw [mem_optional, power, matches'_mul, Language.mem_mul]
  constructor
  · rintro (rfl | ⟨first, hfirst, u, hu, rfl⟩)
    · exact .nil
    · obtain ⟨letter, rfl, hl⟩ := (hletter first).mp hfirst
      obtain ⟨sign, hs, digits, hd, rfl⟩ := Language.mem_mul.mp hu
      change Exponent (letter :: (sign ++ digits))
      exact .power (by simpa using hl) (mem_sign.mp hs) (mem_repeated_digit.mp hd)
  · rintro (_ | @⟨letter, sign, digits, hl, hs, hd⟩)
    · exact .inl rfl
    · have hl : letter = 'e' ∨ letter = 'E' := by simpa using hl
      exact .inr ⟨[letter], (hletter _).mpr ⟨letter, rfl, hl⟩, sign ++ digits,
        Language.mem_mul.mpr ⟨sign, mem_sign.mpr hs, digits, mem_repeated_digit.mpr hd, rfl⟩, rfl⟩

/-- **The forms are the languages of their expressions.** -/
theorem mem_language_iff {form : Numeral} {t : Text} : t ∈ form.language ↔ form.Matches t := by
  cases form with
  | integer =>
    rw [language, expression, matches'_mul, Language.mem_mul]
    constructor
    · rintro ⟨sign, hs, digits, hd, rfl⟩
      exact .integer (mem_minus.mp hs) (mem_repeated_digit.mp hd)
    · rintro ⟨hs, hd⟩
      exact ⟨_, mem_minus.mpr hs, _, mem_repeated_digit.mpr hd, rfl⟩
  | real =>
    simp only [language, expression, matches'_mul, Language.mem_mul]
    constructor
    · rintro ⟨sign, hs, _, ⟨whole, hw, _, ⟨_, rfl, _, ⟨fraction, hf, exponent, he, rfl⟩, rfl⟩,
        rfl⟩, rfl⟩
      change Matches .real (sign ++ (whole ++ '.' :: (fraction ++ exponent)))
      exact .real (mem_minus.mp hs) (isClass_digit.mem_star.mp hw) (mem_repeated_digit.mp hf)
        (mem_optional_power.mp he)
    · rintro (_ | ⟨hs, hw, hf, he⟩)
      exact ⟨_, mem_minus.mpr hs, _, ⟨_, isClass_digit.mem_star.mpr hw, _, ⟨['.'], rfl, _,
        ⟨_, mem_repeated_digit.mpr hf, _, mem_optional_power.mpr he, rfl⟩, rfl⟩, rfl⟩, rfl⟩
  | radix =>
    simp only [language, expression, matches'_mul, Language.mem_mul]
    constructor
    · rintro ⟨base, hb, _, ⟨_, rfl, digits, hd, rfl⟩, rfl⟩
      obtain ⟨hne, hall⟩ := isClass_alphanumeric.mem_repeated.mp hd
      exact .radix (mem_repeated_digit.mp hb) hne hall
    · rintro (_ | _ | ⟨hb, hne, hall⟩)
      exact ⟨_, mem_repeated_digit.mpr hb, _, ⟨['#'], rfl, _,
        isClass_alphanumeric.mem_repeated.mpr ⟨hne, hall⟩, rfl⟩, rfl⟩

end PageTokens.Numeral
