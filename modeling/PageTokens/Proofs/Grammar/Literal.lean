import PageTokens.Lexeme.Literal
import PageTokens.Proofs.Trace

/-!
# The grammar of parenthesized strings

What stands between the parentheses of a string is built from characters that stand for themselves,
from escapes, and from groups, which are such texts between parentheses of their own (`Body`). The
grammar knows no depth and reads nothing back: it says of a text as a whole what it denotes.

The main statement is `completes_start`: the machine, set behind an opening parenthesis, is done
with exactly the bodies followed by a closing one, and its result is what the body denotes. Both
directions rest on the same two facts, that an escape (`completes_escaped`) and a body
(`completes_body`) lead from one state of no escape to another, with what they denote added to the
text.
-/

namespace PageTokens.Literal

/-! ## Escapes -/

/-- The letters that stand for a control character behind a backslash, with that character. -/
def controls : List (Char × Char) :=
  [('n', '\n'), ('r', '\r'), ('t', '\t'), ('b', '\x08'), ('f', '\x0c')]

/-- The characters that do not stand for themselves behind a backslash, or not always. -/
def isSpecial (c : Char) : Bool :=
  isLineBreak c || isOctal c || controls.any (·.1 == c)

/-- What may stand behind a backslash, before a character or the end of the string, and the text
that it denotes together with the backslash. -/
inductive Escaped : Text → Option Char → Text → Prop
  /-- a control character by its letter -/
  | control {c d : Char} {next : Option Char} : (c, d) ∈ controls → Escaped [c] next [d]
  /-- a character by its code, in three octal digits -/
  | code {a b c d : Char} {next : Option Char} :
      isOctal a = true → isOctal b = true → isOctal c = true →
      d.toNat = octalValue a * 64 + octalValue b * 8 + octalValue c → Escaped [a, b, c] next [d]
  /-- one octal digit without a second: no code -/
  | digit {a : Char} {next : Option Char} :
      isOctal a = true → (∀ c ∈ next, isOctal c = false) → Escaped [a] next [a]
  /-- two octal digits without a third: no code -/
  | digits {a b : Char} {next : Option Char} :
      isOctal a = true → isOctal b = true → (∀ c ∈ next, isOctal c = false) →
      Escaped [a, b] next [a, b]
  /-- a line feed, dropped -/
  | lineFeed {next : Option Char} : Escaped ['\n'] next []
  /-- a carriage return without a line feed, dropped -/
  | carriageReturn {next : Option Char} : (∀ c ∈ next, c ≠ '\n') → Escaped ['\r'] next []
  /-- a carriage return with its line feed, dropped -/
  | lineEnd {next : Option Char} : Escaped ['\r', '\n'] next []
  /-- any other character, for itself -/
  | itself {c : Char} {next : Option Char} : isSpecial c = false → Escaped [c] next [c]

open Advance

/-- A closing parenthesis is nothing that an escape would go on with. -/
theorem Escaped.mono {e w : Text} {next next' : Option Char} (h : Escaped e next w)
    (hn : ∀ c ∈ next', c ∈ next ∨ c = ')') : Escaped e next' w := by
  cases h with
  | control h => exact .control h
  | code ha hb hc hd => exact .code ha hb hc hd
  | digit ha hnext =>
    refine .digit ha ?_
    intro c hc
    rcases hn c hc with h | rfl
    · exact hnext c h
    · rfl
  | digits ha hb hnext =>
    refine .digits ha hb ?_
    intro c hc
    rcases hn c hc with h | rfl
    · exact hnext c h
    · rfl
  | lineFeed => exact .lineFeed
  | carriageReturn hnext =>
    refine .carriageReturn ?_
    intro c hc
    rcases hn c hc with h | rfl
    · exact hnext c h
    · decide
  | lineEnd => exact .lineEnd
  | itself h => exact .itself h

/-- At the end of a body a parenthesis comes next, where the grammar has nothing. -/
theorem Escaped.before_close {e w b u : Text} (h : Escaped e b.head? w) :
    Escaped e (b ++ ')' :: u).head? w := by
  refine h.mono ?_
  intro c hc
  cases b with
  | nil => exact .inr (by simpa using hc.symm)
  | cons d b => exact .inl hc

theorem ne_of_isOctal {c d : Char} (hc : isOctal c = true) (hd : isOctal d = false) : c ≠ d := by
  rintro rfl
  simp [hc] at hd

theorem escapedState_octal {c : Char} (h : isOctal c = true) (depth : Nat) (text : Text) :
    escapedState depth text c = ⟨depth, text, .octal c⟩ := by
  have hn : c ≠ 'n' := ne_of_isOctal h rfl
  have hr : c ≠ 'r' := ne_of_isOctal h rfl
  have ht : c ≠ 't' := ne_of_isOctal h rfl
  have hb : c ≠ 'b' := ne_of_isOctal h rfl
  have hf : c ≠ 'f' := ne_of_isOctal h rfl
  have hlf : c ≠ '\n' := ne_of_isOctal h rfl
  have hcr : c ≠ '\r' := ne_of_isOctal h rfl
  simp [escapedState, hn, hr, ht, hb, hf, hlf, hcr, h]

theorem escapedState_itself {c : Char} (h : isSpecial c = false) (depth : Nat) (text : Text) :
    escapedState depth text c = ⟨depth, c :: text, .none⟩ := by
  simp only [isSpecial, controls, isLineBreak, List.any_cons, List.any_nil, Bool.or_eq_false_iff,
    beq_eq_false_iff_ne] at h
  obtain ⟨⟨⟨hlf, hcr⟩, ho⟩, hn, hr, ht, hb, hf, -⟩ := h
  simp [escapedState, hn.symm, hr.symm, ht.symm, hb.symm, hf.symm, hlf, hcr, ho]

theorem octalChar_eq {a b c d : Char}
    (h : d.toNat = octalValue a * 64 + octalValue b * 8 + octalValue c) : octalChar a b c = d := by
  rw [octalChar, ← h, Char.ofNat_toNat]

/-- A string does not end before a character. -/
theorem step_ne_before (s : State) (c : Char) (r : Text) : step s c ≠ .before r := by
  have hp : ∀ depth text, plainStep depth text c ≠ .before r := by
    intro depth text
    unfold plainStep
    repeat' split
    all_goals simp
  obtain ⟨depth, text, escape⟩ := s
  cases escape with
  | none => exact hp depth text
  | backslash => simp [step]
  | lineBreak =>
    by_cases hc : c = '\n'
    · simp [step, hc]
    · simpa [step, hc] using hp depth text
  | octal d =>
    by_cases hc : isOctal c = true
    · simp [step, hc]
    · simpa [step, hc] using hp depth (d :: text)
  | octals d e =>
    by_cases hc : isOctal c = true
    · simp [step, hc]
    · simpa [step, hc] using hp depth (e :: d :: text)

theorem octalValue_lt {c : Char} (h : isOctal c = true) : octalValue c < 8 := by
  simp only [isOctal, Bool.and_eq_true, decide_eq_true_eq] at h
  have h7 : c.toNat ≤ 55 := h.2
  have h0 : '0'.toNat = 48 := rfl
  rw [octalValue, h0]
  omega

/-- The character of an octal code has that code, which is never too large for one. -/
theorem toNat_octalChar {a b c : Char} (ha : isOctal a = true) (hb : isOctal b = true)
    (hc : isOctal c = true) :
    (octalChar a b c).toNat = octalValue a * 64 + octalValue b * 8 + octalValue c := by
  have ha := octalValue_lt ha
  have hb := octalValue_lt hb
  have hc := octalValue_lt hc
  rw [octalChar, Char.ofNat, dif_pos (.inl (by omega))]
  rfl

/-- Behind an escape the machine is in a state that does with the next character what the state of
no escape does, with the text that the escape denotes. -/
theorem feed_escaped {e w : Text} {next : Option Char} (h : Escaped e next w) (depth : Nat)
    (text : Text) :
    ∃ s, feed step ⟨depth, text, .backslash⟩ e = some s ∧
      ∀ c ∈ next, step s c = step ⟨depth, w.reverse ++ text, .none⟩ c := by
  cases h with
  | @control c d _ h =>
    refine ⟨⟨depth, d :: text, .none⟩, ?_, fun _ _ => rfl⟩
    simp only [controls, List.mem_cons, Prod.mk.injEq, List.not_mem_nil, or_false] at h
    rcases h with ⟨rfl, rfl⟩ | ⟨rfl, rfl⟩ | ⟨rfl, rfl⟩ | ⟨rfl, rfl⟩ | ⟨rfl, rfl⟩ <;> rfl
  | @code a b c d _ ha hb hc hd =>
    refine ⟨⟨depth, d :: text, .none⟩, ?_, fun _ _ => rfl⟩
    simp [feed, step, escapedState_octal ha, hb, hc, octalChar_eq hd]
  -- digits that make no code are taken for text only when the next character shows it
  | @digit a _ ha hnext =>
    refine ⟨⟨depth, text, .octal a⟩, ?_, ?_⟩
    · simp [feed, step, escapedState_octal ha]
    · intro c hc
      simp [step, hnext c hc]
  | @digits a b _ ha hb hnext =>
    refine ⟨⟨depth, text, .octals a b⟩, ?_, ?_⟩
    · simp [feed, step, escapedState_octal ha, hb]
    · intro c hc
      simp [step, hnext c hc]
  | lineFeed => exact ⟨⟨depth, text, .none⟩, rfl, fun _ _ => rfl⟩
  | carriageReturn hnext =>
    refine ⟨⟨depth, text, .lineBreak⟩, rfl, ?_⟩
    intro c hc
    simp [step, hnext c hc]
  | lineEnd => exact ⟨⟨depth, text, .none⟩, rfl, fun _ _ => rfl⟩
  | @itself c _ h =>
    refine ⟨⟨depth, c :: text, .none⟩, ?_, fun _ _ => rfl⟩
    simp [feed, step, escapedState_itself h]

/-- What completes a string behind an escape. -/
theorem completes_escaped {e w u r : Text} (h : Escaped e u.head? w) {depth : Nat} {text : Text} :
    Completes step ⟨depth, text, .backslash⟩ (e ++ u) r ↔
      Completes step ⟨depth, w.reverse ++ text, .none⟩ u r := by
  obtain ⟨s, hf, hs⟩ := feed_escaped h depth text
  rw [completes_append hf]
  cases u with
  | nil => exact iff_of_false not_completes_nil not_completes_nil
  | cons c u => exact completes_congr (hs c rfl)

/-- An octal digit begins an escape, of three digits if there are as many and of all that there are
otherwise. -/
theorem exists_escaped_octal {a : Char} (ha : isOctal a = true) (t : Text) :
    ∃ e w u, a :: t = e ++ u ∧ Escaped e u.head? w ∧ e ≠ [] := by
  rcases t with _ | ⟨b, t⟩
  · exact ⟨[a], [a], [], rfl, .digit ha (by simp), by simp⟩
  · by_cases hb : isOctal b = true
    · rcases t with _ | ⟨c, t⟩
      · exact ⟨[a, b], [a, b], [], rfl, .digits ha hb (by simp), by simp⟩
      · by_cases hc : isOctal c = true
        · exact ⟨[a, b, c], [octalChar a b c], t, rfl, .code ha hb hc (toNat_octalChar ha hb hc),
            by simp⟩
        · exact ⟨[a, b], [a, b], c :: t, rfl, .digits ha hb (by simpa using hc), by simp⟩
    · exact ⟨[a], [a], b :: t, rfl, .digit ha (by simpa using hb), by simp⟩

/-- Some escape begins every text behind a backslash. -/
theorem exists_escaped {t : Text} (h : t ≠ []) :
    ∃ e w u, t = e ++ u ∧ Escaped e u.head? w ∧ e ≠ [] := by
  obtain ⟨c, t, rfl⟩ := List.exists_cons_of_ne_nil h
  by_cases ho : isOctal c = true
  · exact exists_escaped_octal ho t
  · by_cases hs : isSpecial c = false
    · exact ⟨[c], [c], t, rfl, .itself hs, by simp⟩
    · simp only [isSpecial, controls, isLineBreak, List.any_cons, List.any_nil, ho,
        Bool.not_eq_false, Bool.or_eq_true, beq_iff_eq, Bool.false_eq_true, or_false] at hs
      rcases hs with (rfl | rfl) | rfl | rfl | rfl | rfl | rfl
      · exact ⟨_, _, t, rfl, .lineFeed, by simp⟩
      · by_cases hlf : t.head? = some '\n'
        · obtain ⟨u, rfl⟩ : ∃ u, t = '\n' :: u := List.head?_eq_some_iff.mp hlf
          exact ⟨_, _, u, rfl, .lineEnd, by simp⟩
        · exact ⟨_, _, t, rfl, .carriageReturn fun c hc e => hlf (e ▸ hc), by simp⟩
      · exact ⟨['n'], ['\n'], t, rfl, .control (by decide), by simp⟩
      · exact ⟨['r'], ['\r'], t, rfl, .control (by decide), by simp⟩
      · exact ⟨['t'], ['\t'], t, rfl, .control (by decide), by simp⟩
      · exact ⟨['b'], ['\x08'], t, rfl, .control (by decide), by simp⟩
      · exact ⟨['f'], ['\x0c'], t, rfl, .control (by decide), by simp⟩

/-! ## Bodies -/

/-- The text between the parentheses of a string, and the text that it denotes. -/
inductive Body : Text → Text → Prop
  /-- nothing -/
  | nil : Body [] []
  /-- a character that stands for itself -/
  | char {c : Char} {b v : Text} :
      c ≠ '(' → c ≠ ')' → c ≠ '\\' → Body b v → Body (c :: b) (c :: v)
  /-- a body in parentheses, which belong to the text -/
  | group {b v b' v' : Text} :
      Body b v → Body b' v' → Body ('(' :: b ++ ')' :: b') ('(' :: v ++ ')' :: v')
  /-- an escape; at the end of a body the string ends or its group does -/
  | escape {e w b v : Text} :
      Escaped e b.head? w → Body b v → Body ('\\' :: e ++ b) (w ++ v)

variable {depth : Nat} {text : Text}

theorem step_open : step ⟨depth, text, .none⟩ '(' = .more ⟨depth + 1, '(' :: text, .none⟩ := rfl

theorem step_close_inner :
    step ⟨depth + 1, text, .none⟩ ')' = .more ⟨depth, ')' :: text, .none⟩ := rfl

theorem step_close : step ⟨0, text, .none⟩ ')' = .last text.reverse := rfl

theorem step_backslash : step ⟨depth, text, .none⟩ '\\' = .more ⟨depth, text, .backslash⟩ := rfl

theorem step_char {c : Char} (ho : c ≠ '(') (hc : c ≠ ')') (hb : c ≠ '\\') :
    step ⟨depth, text, .none⟩ c = .more ⟨depth, c :: text, .none⟩ := by
  simp [step, plainStep, ho, hc, hb]

/-- What completes a string behind a body, from any depth: a body leaves the depth as it is. -/
theorem completes_body {b v : Text} (h : Body b v) {u r : Text} :
    Completes step ⟨depth, text, .none⟩ (b ++ ')' :: u) r ↔
      Completes step ⟨depth, v.reverse ++ text, .none⟩ (')' :: u) r := by
  induction h generalizing depth text u with
  | nil => rfl
  | char ho hc hb _ ih =>
    rw [List.cons_append, completes_cons (step_char ho hc hb), ih]
    simp
  | @group b v b' v' _ _ ih ih' =>
    rw [List.append_assoc, List.cons_append, completes_cons step_open, List.cons_append, ih,
      completes_cons step_close_inner, ih']
    simp
  | @escape e w b v he _ ih =>
    rw [List.append_assoc, List.cons_append, completes_cons step_backslash,
      completes_escaped he.before_close, ih]
    simp

/-- What completes a string begins with a body, and goes on with a closing parenthesis. The
induction is on the length of the text: a group and what follows it are both shorter. -/
theorem exists_body {t r : Text} (h : Completes step ⟨depth, text, .none⟩ t r) :
    ∃ b v u, t = b ++ ')' :: u ∧ Body b v := by
  induction hn : t.length using Nat.strongRecOn generalizing t depth text with
  | ind n ih =>
    rcases t with _ | ⟨c, t⟩
    · exact absurd h not_completes_nil
    by_cases hc : c = ')'
    · subst hc
      exact ⟨[], [], t, rfl, .nil⟩
    by_cases ho : c = '('
    · -- a group, of which the first induction finds the end, and then what follows it
      subst ho
      rw [completes_cons step_open] at h
      obtain ⟨b, v, t', rfl, hb⟩ := ih t.length (by simp [← hn]) h rfl
      rw [completes_body hb, completes_cons step_close_inner] at h
      obtain ⟨b', v', u, rfl, hb'⟩ := ih t'.length
        (by simp only [← hn, List.length_cons, List.length_append]; omega) h rfl
      exact ⟨'(' :: b ++ ')' :: b', _, u, by simp, .group hb hb'⟩
    by_cases hs : c = '\\'
    · -- an escape, behind which the machine is where it was
      subst hs
      rw [completes_cons step_backslash] at h
      obtain ⟨e, w, t', rfl, he, hne⟩ := exists_escaped (t := t) (by
        rintro rfl
        exact not_completes_nil h)
      rw [completes_escaped he] at h
      have hlt := List.length_pos_iff.mpr hne
      obtain ⟨b, v, u, rfl, hb⟩ := ih t'.length
        (by simp only [← hn, List.length_cons, List.length_append]; omega) h rfl
      have he' : Escaped e b.head? w := he.mono fun d hd => .inl (by cases b <;> simp_all)
      exact ⟨'\\' :: e ++ b, _, u, by simp, .escape he' hb⟩
    · rw [completes_cons (step_char ho hc hs)] at h
      obtain ⟨b, v, u, rfl, hb⟩ := ih t.length (by simp [← hn]) h rfl
      exact ⟨c :: b, _, u, rfl, .char ho hc hs hb⟩

/-- Behind an opening parenthesis the machine is done with a body and a closing one, and with
nothing else, and its result is what the body denotes. -/
theorem completes_start {t v : Text} :
    Completes step .start t v ↔ ∃ b, t = b ++ [')'] ∧ Body b v := by
  constructor
  · intro h
    obtain ⟨b, w, u, rfl, hb⟩ := exists_body h
    rcases (completes_body hb).mp h with hl | ⟨hm, hc⟩
    · rw [step_close] at hl
      obtain rfl : w = v := by simpa using hl
      exact ⟨b, rfl, hb⟩
    · rw [step_close] at hm
      cases hm
  · rintro ⟨b, rfl, hb⟩
    refine (completes_body hb).mpr (.last ?_)
    rw [step_close]
    simp

/-- A body denotes no more than one text. -/
theorem Body.unique {b v w : Text} (hv : Body b v) (hw : Body b w) : v = w :=
  (completes_start.mpr ⟨b, rfl, hv⟩).unique (completes_start.mpr ⟨b, rfl, hw⟩)

end PageTokens.Literal
