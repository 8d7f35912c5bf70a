import Mathlib.Data.List.TakeWhile
import PageTokens.Numeral

/-!
# The grammar of numerals

`Numeral.Matches` says of a text as a whole that it has the form of a numeral, part by part. The
readers of the three forms take a text from the front instead, each part as far as it goes, and look
at what is left. Both come to the same (`classify?_eq_some_iff`), since no part of a form can go on
with the character that begins the next one.

The form shows in single characters: a `#` makes a numeral a radix one, a point makes it a real
(`Matches.hash_mem_iff`, `Matches.point_mem_iff`). So no text has two forms, and the order in which
they are tried is of no account.
-/

namespace PageTokens.Numeral

/-! ## The three forms -/

/-- One or more decimal digits. -/
structure Digits (t : Text) : Prop where
  /-- there is one -/
  ne_nil : t ≠ []
  /-- there are no others -/
  all : ∀ c ∈ t, c.isDigit = true

/-- What may stand behind the fraction of a real. -/
inductive Exponent : Text → Prop
  /-- nothing -/
  | nil : Exponent []
  /-- a letter, perhaps a sign, and digits -/
  | power {letter : Char} {sign digits : Text} :
      letter ∈ ['e', 'E'] → sign ∈ [[], ['+'], ['-']] → Digits digits →
      Exponent (letter :: (sign ++ digits))

/-- The texts of each form. -/
inductive Matches : Numeral → Text → Prop
  /-- `-?[0-9]+` -/
  | integer {sign digits : Text} :
      sign ∈ [[], ['-']] → Digits digits → Matches .integer (sign ++ digits)
  /-- `-?[0-9]*\.[0-9]+([eE][+-]?[0-9]+)?` -/
  | real {sign whole fraction exponent : Text} :
      sign ∈ [[], ['-']] → (∀ c ∈ whole, c.isDigit = true) → Digits fraction →
      Exponent exponent → Matches .real (sign ++ (whole ++ '.' :: (fraction ++ exponent)))
  /-- `[0-9]+#[0-9A-Za-z]+` -/
  | radix {base digits : Text} :
      Digits base → digits ≠ [] → (∀ c ∈ digits, c.isAlphanum = true) →
      Matches .radix (base ++ '#' :: digits)

/-! ## Parts -/

theorem isDigits_iff {t : Text} : isDigits t = true ↔ Digits t := by
  simp only [isDigits, Bool.and_eq_true, Bool.not_eq_true', List.isEmpty_eq_false_iff,
    List.all_eq_true]
  exact ⟨fun h => ⟨h.1, h.2⟩, fun h => ⟨h.ne_nil, h.all⟩⟩

theorem Digits.head_ne {t : Text} (h : Digits t) {d : Char} (hd : d.isDigit = false) :
    t.head? ≠ some d := by
  intro ht
  have := h.all d (List.mem_of_head? ht)
  simp [hd] at this

theorem withoutMinus_of_ne {t : Text} (h : t.head? ≠ some '-') : withoutMinus t = t := by
  unfold withoutMinus
  split
  · simp at h
  · rfl

theorem withoutSign_of_ne {t : Text} (h : t.head? ≠ some '+') :
    withoutSign t = withoutMinus t := by
  unfold withoutSign
  split
  · simp at h
  · rfl

/-- A text is its minus sign, if it has one, and the rest. -/
theorem exists_minus (t : Text) : ∃ sign ∈ [[], ['-']], t = sign ++ withoutMinus t := by
  by_cases h : t.head? = some '-'
  · obtain ⟨u, rfl⟩ := List.head?_eq_some_iff.mp h
    exact ⟨['-'], by simp, rfl⟩
  · exact ⟨[], by simp, (withoutMinus_of_ne h).symm⟩

theorem withoutMinus_append {sign t : Text} (hs : sign ∈ [[], ['-']])
    (ht : t.head? ≠ some '-') : withoutMinus (sign ++ t) = t := by
  simp only [List.mem_cons, List.not_mem_nil, or_false] at hs
  rcases hs with rfl | rfl
  · exact withoutMinus_of_ne ht
  · rfl

theorem exists_sign (t : Text) : ∃ sign ∈ [[], ['+'], ['-']], t = sign ++ withoutSign t := by
  by_cases h : t.head? = some '+'
  · obtain ⟨u, rfl⟩ := List.head?_eq_some_iff.mp h
    exact ⟨['+'], by simp, rfl⟩
  · obtain ⟨sign, hs, ht⟩ := exists_minus t
    rw [withoutSign_of_ne h]
    have hs' : sign = [] ∨ sign = ['-'] := by simpa using hs
    exact ⟨sign, by rcases hs' with rfl | rfl <;> simp, ht⟩

theorem withoutSign_append {sign t : Text} (hs : sign ∈ [[], ['+'], ['-']])
    (hp : t.head? ≠ some '+') (hm : t.head? ≠ some '-') : withoutSign (sign ++ t) = t := by
  simp only [List.mem_cons, List.not_mem_nil, or_false] at hs
  rcases hs with rfl | rfl | rfl
  · exact (withoutSign_of_ne hp).trans (withoutMinus_of_ne hm)
  · rfl
  · rfl

/-- Characters of a sort before one that is not of it are found as a whole. -/
theorem takeWhile_dropWhile_append {p : Char → Bool} {t u : Text} (ht : ∀ c ∈ t, p c = true)
    (hu : ∀ c ∈ u.head?, p c = false) :
    (t ++ u).takeWhile p = t ∧ (t ++ u).dropWhile p = u := by
  rw [List.takeWhile_append_of_pos ht, List.dropWhile_append_of_pos ht]
  cases u with
  | nil => simp
  | cons c u => simp [hu c rfl]

/-! ## The readers of the forms -/

theorem isInteger_iff {t : Text} : isInteger t = true ↔ Matches .integer t := by
  rw [isInteger, isDigits_iff]
  constructor
  · intro h
    obtain ⟨sign, hs, ht⟩ := exists_minus t
    rw [ht]
    exact .integer hs h
  · rintro ⟨hs, hd⟩
    rwa [withoutMinus_append hs (hd.head_ne rfl)]

theorem isExponent_iff {t : Text} : isExponent t = true ↔ Exponent t := by
  constructor
  · intro h
    cases t with
    | nil => exact .nil
    | cons letter t =>
      simp only [isExponent, Bool.and_eq_true, Bool.or_eq_true, beq_iff_eq, isDigits_iff] at h
      obtain ⟨hletter, hdigits⟩ := h
      obtain ⟨sign, hs, ht⟩ := exists_sign t
      rw [ht]
      exact .power (by simpa using hletter) hs hdigits
  · rintro (_ | ⟨hletter, hs, hd⟩)
    · rfl
    · have hsign := withoutSign_append hs (hd.head_ne rfl) (hd.head_ne rfl)
      simp only [isExponent, hsign, isDigits_iff.mpr hd, Bool.and_true, Bool.or_eq_true, beq_iff_eq]
      simpa using hletter

/-- An exponent does not begin with a digit. -/
theorem Exponent.head_not_digit {t : Text} (h : Exponent t) :
    ∀ c ∈ t.head?, c.isDigit = false := by
  intro c hc
  cases h with
  | nil => cases hc
  | power hletter =>
    obtain rfl := Option.some.inj hc
    simp only [List.mem_cons, List.not_mem_nil, or_false] at hletter
    rcases hletter with rfl | rfl <;> rfl

theorem isFraction_iff {t : Text} :
    isFraction t = true ↔ ∃ fraction exponent, t = fraction ++ exponent ∧ Digits fraction ∧
      Exponent exponent := by
  simp only [isFraction, Bool.and_eq_true, Bool.not_eq_true', List.isEmpty_eq_false_iff,
    isExponent_iff]
  constructor
  · rintro ⟨hne, he⟩
    exact ⟨_, _, List.takeWhile_append_dropWhile.symm,
      ⟨hne, fun c hc => List.mem_takeWhile_imp hc⟩, he⟩
  · rintro ⟨fraction, exponent, rfl, hf, he⟩
    obtain ⟨htake, hdrop⟩ := takeWhile_dropWhile_append hf.all he.head_not_digit
    rw [htake, hdrop]
    exact ⟨hf.ne_nil, he⟩

theorem isReal_iff {t : Text} : isReal t = true ↔ Matches .real t := by
  constructor
  · intro h
    unfold isReal at h
    split at h
    · next rest hrest =>
      obtain ⟨fraction, exponent, rfl, hf, he⟩ := isFraction_iff.mp h
      obtain ⟨sign, hs, ht⟩ := exists_minus t
      rw [ht, ← List.takeWhile_append_dropWhile (p := Char.isDigit) (l := withoutMinus t), hrest]
      exact .real hs (fun c hc => List.mem_takeWhile_imp hc) hf he
    · cases h
  · intro h
    cases h with
    | @real sign whole fraction exponent hs hw hf he =>
      have hhead : (whole ++ '.' :: (fraction ++ exponent)).head? ≠ some '-' := by
        cases whole with
        | nil => simp
        | cons c whole =>
          intro hc
          obtain rfl : c = '-' := Option.some.inj hc
          exact absurd (hw '-' (List.mem_cons_self ..)) (by decide)
      obtain ⟨-, hdrop⟩ := takeWhile_dropWhile_append (u := '.' :: (fraction ++ exponent)) hw
        (by simp)
      rw [isReal, withoutMinus_append hs hhead, hdrop]
      exact isFraction_iff.mpr ⟨fraction, exponent, rfl, hf, he⟩

theorem isRadix_iff {t : Text} : isRadix t = true ↔ Matches .radix t := by
  constructor
  · intro h
    unfold isRadix at h
    split at h
    · next c digits hdrop =>
      simp only [Bool.and_eq_true, isDigits_iff, Bool.not_eq_true', List.isEmpty_eq_false_iff,
        List.all_eq_true] at h
      obtain ⟨⟨hbase, hne⟩, hall⟩ := h
      have hc := List.head?_dropWhile_not (· != '#') t
      rw [hdrop] at hc
      obtain rfl : c = '#' := by simpa using hc
      rw [← List.takeWhile_append_dropWhile (p := (· != '#')) (l := t), hdrop]
      exact .radix hbase hne hall
    · cases h
  · intro h
    cases h with
    | @radix base digits hbase hne hall =>
      have hhash : ∀ c ∈ base, (c != '#') = true := by
        intro c hc
        rw [bne_iff_ne]
        rintro rfl
        exact absurd (hbase.all '#' hc) (by decide)
      obtain ⟨htake, hdrop⟩ := takeWhile_dropWhile_append (u := '#' :: digits) hhash (by simp)
      rw [isRadix, htake, hdrop]
      simpa [isDigits_iff.mpr hbase, hne] using hall

/-! ## What a numeral is made of -/

theorem Digits.not_mem {t : Text} (h : Digits t) {c : Char} (hc : c.isDigit = false) : c ∉ t := by
  intro hmem
  simp [h.all c hmem] at hc

theorem not_mem_of_minus {sign : Text} (hs : sign ∈ [[], ['-']]) {c : Char} (hc : c ≠ '-') :
    c ∉ sign := by
  simp only [List.mem_cons, List.not_mem_nil, or_false] at hs
  rcases hs with rfl | rfl <;> simp [hc]

theorem Exponent.not_mem {t : Text} (h : Exponent t) {c : Char} (hd : c.isDigit = false)
    (hc : c ∉ ['e', 'E', '+', '-']) : c ∉ t := by
  simp only [List.mem_cons, List.not_mem_nil, or_false, not_or] at hc
  obtain ⟨he, hE, hp, hm⟩ := hc
  cases h with
  | nil => exact List.not_mem_nil
  | power hletter hs hdigits =>
    simp only [List.mem_cons, List.not_mem_nil, or_false] at hletter hs
    rcases hletter with rfl | rfl <;> rcases hs with rfl | rfl | rfl <;>
      simp [he, hE, hp, hm, hdigits.not_mem hd]

/-- The radix numerals are those with a `#`. -/
theorem Matches.hash_mem_iff {form : Numeral} {t : Text} (h : Matches form t) :
    '#' ∈ t ↔ form = .radix := by
  cases h with
  | integer hs hd => simp [not_mem_of_minus hs, hd.not_mem]
  | @real sign whole fraction exponent hs hw hf he =>
    have hwhole : '#' ∉ whole := fun hmem => absurd (hw '#' hmem) (by decide)
    simp [not_mem_of_minus hs, hwhole, hf.not_mem, he.not_mem]
  | radix => simp

/-- The reals are those with a point. -/
theorem Matches.point_mem_iff {form : Numeral} {t : Text} (h : Matches form t) :
    '.' ∈ t ↔ form = .real := by
  cases h with
  | integer hs hd => simp [not_mem_of_minus hs, hd.not_mem]
  | real => simp
  | @radix base digits hbase _ hall =>
    have hdigits : '.' ∉ digits := fun hmem => absurd (hall '.' hmem) (by decide)
    simp [hbase.not_mem, hdigits]

/-- No text has two forms. -/
theorem Matches.unique {form form' : Numeral} {t : Text} (h : Matches form t)
    (h' : Matches form' t) : form = form' := by
  have hradix : form = .radix ↔ form' = .radix := h.hash_mem_iff.symm.trans h'.hash_mem_iff
  have hreal : form = .real ↔ form' = .real := h.point_mem_iff.symm.trans h'.point_mem_iff
  cases form <;> cases form' <;> simp_all

/-- **A text is a numeral of a form if it matches it**, whichever form is tried first. -/
theorem classify?_eq_some_iff {t : Text} {form : Numeral} :
    classify? t = some form ↔ Matches form t := by
  have hall : ∀ form, Matches form t → classify? t = some form := by
    intro form h
    have hradix : isRadix t = true ↔ form = .radix :=
      isRadix_iff.trans ⟨h.unique, fun hf => hf ▸ h⟩
    have hreal : isReal t = true ↔ form = .real :=
      isReal_iff.trans ⟨h.unique, fun hf => hf ▸ h⟩
    have hinteger : isInteger t = true ↔ form = .integer :=
      isInteger_iff.trans ⟨h.unique, fun hf => hf ▸ h⟩
    cases form <;> simp_all [classify?]
  refine ⟨?_, hall form⟩
  intro h
  unfold classify? at h
  split at h
  · obtain rfl := Option.some.inj h
    exact isRadix_iff.mp ‹_›
  · split at h
    · obtain rfl := Option.some.inj h
      exact isReal_iff.mp ‹_›
    · split at h
      · obtain rfl := Option.some.inj h
        exact isInteger_iff.mp ‹_›
      · cases h

/-! ## Numerals as runs -/

theorem Digits.opens {t : Text} (h : Digits t) (u : Text) :
    ∀ c ∈ (t ++ u).head?, opensNumeral c = true := by
  intro c hc
  obtain ⟨d, t, rfl⟩ := List.exists_cons_of_ne_nil h.ne_nil
  obtain rfl := Option.some.inj hc
  simp [opensNumeral, h.all d (List.mem_cons_self ..)]

/-- A numeral begins like one, so nothing is lost where only such runs are looked at. -/
theorem Matches.opens {form : Numeral} {t : Text} (h : Matches form t) :
    ∀ c ∈ t.head?, opensNumeral c = true := by
  have hminus : ∀ {sign u : Text}, sign ∈ [[], ['-']] →
      (∀ c ∈ u.head?, opensNumeral c = true) → ∀ c ∈ (sign ++ u).head?, opensNumeral c = true := by
    intro sign u hs hu
    simp only [List.mem_cons, List.not_mem_nil, or_false] at hs
    rcases hs with rfl | rfl
    · exact hu
    · intro c hc
      obtain rfl := Option.some.inj hc
      rfl
  cases h with
  | integer hs hd => exact hminus hs (by simpa using hd.opens [])
  | @real sign whole fraction exponent hs hw =>
    refine hminus hs ?_
    cases whole with
    | nil =>
      intro c hc
      obtain rfl := Option.some.inj hc
      rfl
    | cons d whole => exact Digits.opens ⟨by simp, hw⟩ _
  | radix hbase => exact hbase.opens _

theorem Matches.ne_nil {form : Numeral} {t : Text} (h : Matches form t) : t ≠ [] := by
  cases h with
  | integer _ hd => simp [hd.ne_nil]
  | real => simp
  | radix => simp

/-- The characters that there are in numerals. -/
def isPart (c : Char) : Bool :=
  c.isAlphanum || c == '-' || c == '+' || c == '.' || c == '#'

theorem isPart_of_isDigit {c : Char} (h : c.isDigit = true) : isPart c = true := by
  simp [isPart, Char.isAlphanum, h]

theorem isPart_of_sign {sign : Text} (hs : sign ∈ [[], ['+'], ['-']]) :
    ∀ c ∈ sign, isPart c = true := by
  simp only [List.mem_cons, List.not_mem_nil, or_false] at hs
  rcases hs with rfl | rfl | rfl <;> simp [isPart]

theorem Exponent.isPart {t : Text} (h : Exponent t) : ∀ c ∈ t, isPart c = true := by
  cases h with
  | nil => simp
  | power hletter hs hd =>
    refine List.forall_mem_cons.mpr ⟨?_, List.forall_mem_append.mpr ⟨isPart_of_sign hs, ?_⟩⟩
    · simp only [List.mem_cons, List.not_mem_nil, or_false] at hletter
      rcases hletter with rfl | rfl <;> rfl
    · exact fun c hc => isPart_of_isDigit (hd.all c hc)

theorem Matches.isPart {form : Numeral} {t : Text} (h : Matches form t) :
    ∀ c ∈ t, isPart c = true := by
  have hminus : ∀ {sign : Text}, sign ∈ [[], ['-']] → ∀ c ∈ sign, Numeral.isPart c = true := by
    intro sign hs
    refine isPart_of_sign ?_
    simp only [List.mem_cons, List.not_mem_nil, or_false] at hs ⊢
    exact hs.imp_right .inr
  have hdigits : ∀ {u : Text}, (∀ c ∈ u, c.isDigit = true) → ∀ c ∈ u, Numeral.isPart c = true :=
    fun hu c hc => isPart_of_isDigit (hu c hc)
  cases h with
  | integer hs hd => exact List.forall_mem_append.mpr ⟨hminus hs, hdigits hd.all⟩
  | real hs hw hf he =>
    have hrest := List.forall_mem_append.mpr ⟨hdigits hf.all, he.isPart⟩
    exact List.forall_mem_append.mpr ⟨hminus hs,
      List.forall_mem_append.mpr ⟨hdigits hw, List.forall_mem_cons.mpr ⟨rfl, hrest⟩⟩⟩
  | @radix base digits hbase _ hall =>
    have hrest : ∀ c ∈ digits, Numeral.isPart c = true := by
      intro c hc
      simp [Numeral.isPart, hall c hc]
    exact List.forall_mem_append.mpr ⟨hdigits hbase.all, List.forall_mem_cons.mpr ⟨rfl, hrest⟩⟩

/-- Letters and digits are of ASCII. -/
theorem lt_of_isAlphanum {c : Char} (h : c.isAlphanum = true) : c.toNat < 0x80 := by
  rcases (Bool.or_eq_true _ _).mp h with ha | hd
  · rcases (Bool.or_eq_true _ _).mp ha with hu | hl
    · have hZ : c.toNat ≤ 90 := (of_decide_eq_true hu).2
      omega
    · have hz : c.toNat ≤ 122 := of_decide_eq_true ((Bool.and_eq_true _ _).mp hl).2
      omega
  · have h9 : c.toNat ≤ 57 := of_decide_eq_true ((Bool.and_eq_true _ _).mp hd).2
    omega

/-- The characters of numerals are regular, and of ASCII. -/
theorem isRegular_of_isPart {c : Char} (h : isPart c = true) :
    isRegular c = true ∧ c.toNat < 0x80 := by
  simp only [isPart, Bool.or_eq_true, beq_iff_eq] at h
  rcases h with (((h | rfl) | rfl) | rfl) | rfl
  · have hne : ∀ d : Char, d.isAlphanum = false → (c == d) = false := by
      intro d hd
      rw [beq_eq_false_iff_ne]
      rintro rfl
      simp [h] at hd
    refine ⟨isRegular_iff.mpr ⟨?_, ?_⟩, lt_of_isAlphanum h⟩
    · simp [isWhite, hne]
    · simp [isDelimiter, hne]
  all_goals exact ⟨rfl, by decide⟩

theorem Matches.regular {form : Numeral} {t : Text} (h : Matches form t) :
    ∀ c ∈ t, isRegular c = true ∧ c.toNat < 0x80 :=
  fun c hc => isRegular_of_isPart (h.isPart c hc)

end PageTokens.Numeral
