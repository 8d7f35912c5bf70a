import PageTokens.Token.Source

/-!
# What is fit to print

Whatever the value of a token has in it, the rendered token is plain text: Latin-1, and nothing in
it that is a control character (`Token.plain_render`). Rendered tokens can therefore be written as
bytes, one for each character, and each of them stays on its line.
-/

namespace PageTokens

/-- A text that is fit to print: without control characters, and of Latin-1. -/
def Plain (t : Text) : Prop := ∀ c ∈ t, isControl c = false ∧ c.toNat < 0x100

theorem Plain.append {t u : Text} (ht : Plain t) (hu : Plain u) : Plain (t ++ u) :=
  fun c hc => (List.mem_append.mp hc).elim (ht c) (hu c)

theorem plain_of_all {t : Text}
    (h : (t.all fun c => !isControl c && decide (c.toNat < 0x100)) = true) : Plain t := by
  intro c hc
  simpa using List.all_eq_true.mp h c hc

theorem Plain.lineFeed_not_mem {t : Text} (h : Plain t) : '\n' ∉ t := by
  intro hc
  exact absurd (h _ hc).1 (by decide)

/-! ## Digits -/

theorem plain_of_isDigit {t : Text} (h : ∀ c ∈ t, c.isDigit = true) : Plain t := by
  intro c hc
  have hd := h c hc
  simp only [Char.isDigit, Bool.and_eq_true, decide_eq_true_eq] at hd
  have hlow : 48 ≤ c.toNat := hd.1
  have hhigh : c.toNat ≤ 57 := hd.2
  have hcontrol : isControl c = false := by
    simp [isControl]
    omega
  exact ⟨hcontrol, by omega⟩

theorem plain_toDigits {base : Nat} (hpos : 0 < base) (hle : base ≤ 10) (n : Nat) :
    Plain (Nat.toDigits base n) :=
  plain_of_isDigit fun _ => Nat.isDigit_of_mem_toDigits hpos hle

theorem isDigit_of_mem_octalCode {n : Nat} : ∀ c ∈ octalCode n, c.isDigit = true := by
  intro c hc
  rcases List.mem_append.mp hc with h | h
  · rw [List.eq_of_mem_replicate h]
    rfl
  · exact Nat.isDigit_of_mem_toDigits (by decide) (by decide) h

theorem plain_octalCode (n : Nat) : Plain (octalCode n) :=
  plain_of_isDigit isDigit_of_mem_octalCode

/-- A number can be read off its digits. -/
theorem toDigits_injective {m n : Nat} (h : Nat.toDigits 10 m = Nat.toDigits 10 n) : m = n := by
  have hvalue := congrArg (Nat.ofDigitChars 10 · 0) h
  simpa only [Nat.ofDigitChars_ten_toDigits] using hvalue

/-! ## Texts before a character that ends them -/

/-- Two texts behind which something ends them, that they do not have in them, can be told from what
stands behind them. -/
theorem append_cons_inj {p : Char → Prop} {t u x y : Text} {c d : Char}
    (ht : ∀ e ∈ t, ¬ p e) (hu : ∀ e ∈ u, ¬ p e) (hc : p c) (hd : p d)
    (h : t ++ c :: x = u ++ d :: y) : t = u ∧ c = d ∧ x = y := by
  induction t generalizing u with
  | nil =>
    cases u with
    | nil => exact ⟨rfl, List.cons.inj h⟩
    | cons e u =>
      obtain ⟨rfl, -⟩ := List.cons.inj h
      exact absurd hc (hu c (List.mem_cons_self ..))
  | cons e t ih =>
    cases u with
    | nil =>
      obtain ⟨rfl, -⟩ := List.cons.inj h
      exact absurd hd (ht e (List.mem_cons_self ..))
    | cons e' u =>
      obtain ⟨rfl, hbehind⟩ := List.cons.inj h
      obtain ⟨rfl, hrest⟩ := ih (fun e he => ht e (List.mem_cons_of_mem _ he))
        (fun e he => hu e (List.mem_cons_of_mem _ he)) hbehind
      exact ⟨rfl, hrest⟩

/-- So can texts before a character that is in neither. -/
theorem append_sep_inj {t u x y : Text} {c : Char} (ht : c ∉ t) (hu : c ∉ u)
    (h : t ++ c :: x = u ++ c :: y) : t = u ∧ x = y := by
  obtain ⟨htu, -, hxy⟩ := append_cons_inj (p := (· = c)) (fun e he hc => ht (hc ▸ he))
    (fun e he hc => hu (hc ▸ he)) rfl rfl h
  exact ⟨htu, hxy⟩

/-- A number can be told from what stands behind it, if that is no digit. -/
theorem toDigits_append_inj {m n : Nat} {x y : Text} {c d : Char} (hc : c.isDigit = false)
    (hd : d.isDigit = false) (h : Nat.toDigits 10 m ++ c :: x = Nat.toDigits 10 n ++ d :: y) :
    m = n ∧ c = d ∧ x = y := by
  have hdigits : ∀ k, ∀ e ∈ Nat.toDigits 10 k, ¬ e.isDigit = false := by
    intro k e he
    simp [Nat.isDigit_of_mem_toDigits (by decide) (by decide) he]
  obtain ⟨hmn, hrest⟩ := append_cons_inj (hdigits m) (hdigits n) hc hd h
  exact ⟨toDigits_injective hmn, hrest⟩

/-! ## Rendered tokens -/

/-- A character is shown by plain ones. -/
theorem plain_escapeChar (c : Char) : Plain (escapeChar c) := by
  unfold escapeChar
  repeat' split
  any_goals exact plain_of_all rfl
  · exact Plain.append (t := ['\\']) (plain_of_all rfl) (plain_octalCode c.toNat)
  · next hc =>
    -- what needs no code is plain itself
    intro d hd
    obtain rfl := List.mem_singleton.mp hd
    have hcode : needsCode d = false := by simpa using hc
    obtain ⟨hcontrol, hbig⟩ := Bool.or_eq_false_iff.mp hcode
    exact ⟨hcontrol, Nat.lt_succ_of_le (Nat.not_lt.mp (of_decide_eq_false hbig))⟩

theorem plain_escape (t : Text) : Plain (escape t) := by
  intro c hc
  obtain ⟨d, -, hd⟩ := List.mem_flatMap.mp hc
  exact plain_escapeChar d c hd

/-- Guarding adds backslashes alone. -/
theorem mem_guardParens {t : Text} {c : Char} (h : c ∈ guardParens t) : c = '\\' ∨ c ∈ t := by
  obtain ⟨d, hd, hc⟩ := List.mem_flatMap.mp h
  unfold guardChar at hc
  split at hc
  · rcases List.mem_cons.mp hc with rfl | hc
    · exact .inl rfl
    · exact .inr (List.mem_singleton.mp hc ▸ hd)
  · exact .inr (List.mem_singleton.mp hc ▸ hd)

theorem Plain.guardParens {t : Text} (h : Plain t) : Plain (guardParens t) := by
  intro c hc
  rcases mem_guardParens hc with rfl | hc
  · decide
  · exact h c hc

/-- **A rendered token is fit to print**, whatever its value has in it. -/
theorem Token.plain_render (t : Token) : Plain t.render := by
  have he := plain_escape t.value
  have hg := he.guardParens
  unfold Token.render
  split
  · exact .append (t := ['(']) (plain_of_all rfl) (hg.append (plain_of_all rfl))
  · exact .append (t := ['<']) (plain_of_all rfl) (he.append (plain_of_all rfl))
  · exact .append (t := ['<', '~']) (plain_of_all rfl) (he.append (plain_of_all rfl))
  · exact .append (t := ['/']) (plain_of_all rfl) he
  · exact .append (t := ['/', '/']) (plain_of_all rfl) he
  all_goals exact he

end PageTokens
