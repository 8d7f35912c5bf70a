import PageTokens.Proofs.Balance
import PageTokens.Proofs.Whole

/-!
# Strings put together

The text between the parentheses of one string may be put behind that of another. The result stands
between parentheses as well, and denotes what the two denote, one behind the other. There are two
exceptions, both of them escapes that the second text goes on with: a carriage return that finds its
line feed, and octal digits that become three.

What a text ends in is told by its characters (`Literal.EndsEscaped`), and the machine is in the
state that belongs to it (`Literal.endsEscaped_of_feed`). Whatever the second text makes of an
escape at the end of the first, the rest of both is not touched by it (`Literal.Body.extend`). The
main statement is `isToken_append`.
-/

namespace PageTokens

namespace Literal

open Advance

/-! ## How a text ends -/

/-- A text ends in these characters, and they stand behind a backslash that none escapes. -/
def EndsEscaped (t e : Text) : Prop :=
  ∃ front, t = front ++ e ∧ slashesBefore t front.length % 2 = 1

/-- A text ends in an escaped carriage return, and the next begins with a line feed. -/
def LineEndMeets (a b : Text) : Prop :=
  EndsEscaped a ['\r'] ∧ b.head? = some '\n'

/-- A text ends in an octal escape of only one or two digits, and the next begins with another one.
-/
def DigitsMeet (a b : Text) : Prop :=
  ∃ digits, EndsEscaped a digits ∧ (digits.length = 1 ∨ digits.length = 2) ∧
    (∀ d ∈ digits, isOctal d = true) ∧ ∃ c ∈ b.head?, isOctal c = true

/-- The three digits of a code, of which the first stand at the end of a text, behind their
backslash, and the others at the beginning of the next. -/
structure SharesCode (a b digits more : Text) : Prop where
  /-- the first digits, behind the backslash -/
  ends : EndsEscaped a digits
  /-- there is one -/
  digits_ne_nil : digits ≠ []
  /-- the other digits -/
  begins : more <+: b
  /-- there is one -/
  more_ne_nil : more ≠ []
  /-- all of them are octal -/
  octal : ∀ d ∈ digits ++ more, isOctal d = true
  /-- there are three of them -/
  three : (digits ++ more).length = 3

theorem SharesCode.digitsMeet {a b digits more : Text} (h : SharesCode a b digits more) :
    DigitsMeet a b := by
  obtain ⟨c, more, rfl⟩ := List.exists_cons_of_ne_nil h.more_ne_nil
  obtain ⟨rest, rfl⟩ := h.begins
  have hpos := List.length_pos_iff.mpr h.digits_ne_nil
  have hthree := h.three
  simp only [List.length_append, List.length_cons] at hthree
  refine ⟨digits, h.ends, by omega, ?_, c, rfl, h.octal c (by simp)⟩
  intro d hd
  exact h.octal d (List.mem_append_left _ hd)

/-! ## States and ends -/

/-- What a character makes of an escape that is under way. -/
inductive Escape.Step : Escape → Char → Escape → Prop
  /-- no escape is under way behind it -/
  | none {e : Escape} {c : Char} : Step e c .none
  /-- it begins one -/
  | backslash {e : Escape} : e ≠ .backslash → Step e '\\' .backslash
  /-- it may be the first half of a line end -/
  | lineBreak : Step .backslash '\r' .lineBreak
  /-- it is the first digit of a code -/
  | octal {c : Char} : isOctal c = true → Step .backslash c (.octal c)
  /-- it is the second one -/
  | octals {c d : Char} : isOctal c = true → Step (.octal d) c (.octals d c)

theorem Escape.Step.plain {e : Escape} {depth : Nat} {text : Text} {c : Char} {next : State}
    (he : e ≠ .backslash) (h : plainStep depth text c = .more next) : Step e c next.escape := by
  unfold plainStep at h
  split at h
  · obtain rfl := Advance.more.inj h
    exact .none
  split at h
  · cases depth with
    | zero => cases h
    | succ =>
      obtain rfl := Advance.more.inj h
      exact .none
  split at h
  · obtain rfl := Advance.more.inj h
    subst c
    exact .backslash he
  · obtain rfl := Advance.more.inj h
    exact .none

theorem Escape.Step.escaped (depth : Nat) (text : Text) (c : Char) :
    Step .backslash c (escapedState depth text c).escape := by
  unfold escapedState
  repeat' split
  any_goals exact .none
  · subst c
    exact .lineBreak
  · exact .octal ‹_›

/-- What comes of the escape that is under way, if the string goes on. -/
theorem escapeStep_of_step {s next : State} {c : Char} (h : step s c = .more next) :
    Escape.Step s.escape c next.escape := by
  obtain ⟨depth, text, escape⟩ := s
  cases escape with
  | none => exact .plain (by simp) h
  | backslash =>
    obtain rfl := Advance.more.inj h
    exact .escaped depth text c
  | lineBreak =>
    by_cases hc : c = '\n'
    · simp only [step, if_pos hc, Advance.more.injEq] at h
      exact h ▸ .none
    · simp only [step, if_neg hc] at h
      exact .plain (by simp) h
  | octal d =>
    by_cases hc : isOctal c = true
    · simp only [step, if_pos hc, Advance.more.injEq] at h
      exact h ▸ .octals hc
    · simp only [step, if_neg hc] at h
      exact .plain (by simp) h
  | octals d e =>
    by_cases hc : isOctal c = true
    · simp only [step, if_pos hc, Advance.more.injEq] at h
      exact h ▸ .none
    · simp only [step, if_neg hc] at h
      exact .plain (by simp) h

theorem slashesBefore_append (t u : Text) :
    slashesBefore (t ++ u) t.length = slashesBefore t t.length := by
  rw [slashesBefore, slashesBefore, List.take_left, List.take_length]

/-- A backslash waits for its character if none escapes it. -/
theorem escape_eq_backslash_iff {t : Text} {s : State} (h : feed step .start t = some s) :
    s.escape = .backslash ↔ slashesBefore t t.length % 2 = 1 := by
  have hescaped := (Outline.stands_of_feed (Nat.le_refl _) (feed_outline h)).escaped
  simp only [State.outline, decide_eq_true_eq] at hescaped
  rw [hescaped]
  omega

/-- The last character of a text that is taken, and the states around it. -/
theorem exists_concat_of_feed {t : Text} {s : State} (h : feed step .start t = some s)
    (hs : s.escape ≠ .none) :
    ∃ front c mid, t = front ++ [c] ∧ feed step .start front = some mid ∧
      Escape.Step mid.escape c s.escape := by
  rcases List.eq_nil_or_concat t with rfl | ⟨front, c, rfl⟩
  · obtain rfl := Option.some.inj h
    exact absurd rfl hs
  · rw [List.concat_eq_append, feed_append] at h
    obtain ⟨mid, hmid, hlast⟩ := Option.bind_eq_some_iff.mp h
    refine ⟨front, c, mid, List.concat_eq_append, hmid, ?_⟩
    rw [feed] at hlast
    cases hstep : step mid c with
    | more next =>
      rw [hstep] at hlast
      obtain rfl := Option.some.inj hlast
      exact escapeStep_of_step hstep
    | last r => simp [hstep] at hlast
    | before r => simp [hstep] at hlast

theorem endsEscaped_of_backslash {front : Text} {mid : State}
    (h : feed step .start front = some mid) (he : mid.escape = .backslash) (e : Text) :
    EndsEscaped (front ++ e) e := by
  refine ⟨front, rfl, ?_⟩
  rw [slashesBefore_append]
  exact (escape_eq_backslash_iff h).mp he

/-- How a text ends that leaves a line end open. -/
theorem endsEscaped_of_lineBreak {t : Text} {s : State} (h : feed step .start t = some s)
    (hs : s.escape = .lineBreak) : EndsEscaped t ['\r'] := by
  obtain ⟨front, c, mid, rfl, hmid, hstep⟩ := exists_concat_of_feed h (by simp [hs])
  rw [hs] at hstep
  generalize hb : mid.escape = escape at hstep
  cases hstep
  exact endsEscaped_of_backslash hmid hb _

/-- How a text ends that leaves a code open behind one digit. -/
theorem endsEscaped_of_octal {t : Text} {s : State} {d : Char} (h : feed step .start t = some s)
    (hs : s.escape = .octal d) : EndsEscaped t [d] ∧ isOctal d = true := by
  obtain ⟨front, c, mid, rfl, hmid, hstep⟩ := exists_concat_of_feed h (by simp [hs])
  rw [hs] at hstep
  generalize hb : mid.escape = escape at hstep
  cases hstep with
  | octal hd => exact ⟨endsEscaped_of_backslash hmid hb _, hd⟩

theorem EndsEscaped.append {t e : Text} (h : EndsEscaped t e) (u : Text) :
    EndsEscaped (t ++ u) (e ++ u) := by
  obtain ⟨front, rfl, hodd⟩ := h
  refine ⟨front, List.append_assoc .., ?_⟩
  rw [slashesBefore_append] at hodd
  rwa [List.append_assoc, slashesBefore_append]

/-- How a text ends that leaves a code open behind two digits. -/
theorem endsEscaped_of_octals {t : Text} {s : State} {d e : Char}
    (h : feed step .start t = some s) (hs : s.escape = .octals d e) :
    EndsEscaped t [d, e] ∧ isOctal d = true ∧ isOctal e = true := by
  obtain ⟨front, c, mid, rfl, hmid, hstep⟩ := exists_concat_of_feed h (by simp [hs])
  rw [hs] at hstep
  generalize hb : mid.escape = escape at hstep
  cases hstep with
  | octals he =>
    obtain ⟨hends, hd⟩ := endsEscaped_of_octal hmid hb
    exact ⟨hends.append [e], hd, he⟩

/-! ## Bodies behind bodies -/

theorem completes_close_iff {b v : Text} : Completes step .start (b ++ [')']) v ↔ Body b v := by
  rw [completes_start]
  constructor
  · rintro ⟨b', hb, hbody⟩
    rwa [List.append_cancel_right hb]
  · intro h
    exact ⟨b, rfl, h⟩

/-- A closing parenthesis ends a string only where no other is open. -/
theorem eq_of_step_close {depth : Nat} {text v : Text}
    (h : step ⟨depth, text, .none⟩ ')' = .last v) : depth = 0 ∧ v = text.reverse := by
  cases depth with
  | zero => exact ⟨rfl, (Advance.last.inj h).symm⟩
  | succ depth => cases h

/-- A body that begins with a character for itself. -/
theorem Body.exists_of_cons {c : Char} {b v : Text} (ho : c ≠ '(') (hs : c ≠ '\\')
    (h : Body (c :: b) v) : ∃ w, v = c :: w ∧ Body b w := by
  generalize ht : c :: b = t at h
  cases h with
  | nil => cases ht
  | char _ _ _ hb =>
    obtain ⟨rfl, rfl⟩ := List.cons.inj ht
    exact ⟨_, rfl, hb⟩
  | group => exact absurd (List.cons.inj ht).1 ho
  | escape => exact absurd (List.cons.inj ht).1 hs

/-- A body that begins with digits, which stand for themselves there. -/
theorem Body.exists_of_digits {t b v : Text} (ht : ∀ d ∈ t, isOctal d = true)
    (h : Body (t ++ b) v) : ∃ w, v = t ++ w ∧ Body b w := by
  induction t generalizing v with
  | nil => exact ⟨v, rfl, h⟩
  | cons d t ih =>
    obtain ⟨hd, ht⟩ := List.forall_mem_cons.mp ht
    obtain ⟨w, rfl, hw⟩ := Body.exists_of_cons (ne_of_isOctal hd rfl) (ne_of_isOctal hd rfl) h
    obtain ⟨w', rfl, hw'⟩ := ih ht hw
    exact ⟨w', rfl, hw'⟩

/-- **What an escape at the end of a body becomes**, if more of what follows belongs to it: the
text before it stays, and so does what the rest denotes. -/
theorem Body.extend {a v e x : Text} (ha : Body a v) (he : EndsEscaped a e)
    (hx : Escaped e none x) :
    ∃ v', v = v' ++ x ∧ ∀ {m y b w : Text}, Escaped (e ++ m) b.head? y → Body b w →
      Body (a ++ (m ++ b)) (v' ++ (y ++ w)) := by
  obtain ⟨front, rfl, hodd⟩ := he
  have hcompletes := completes_close_iff.mpr ha
  obtain ⟨u, c, s, hu, hfeed, -⟩ := hcompletes.exists_last
  obtain ⟨rfl, -⟩ := List.append_inj' hu rfl
  -- the machine behind the backslash of that escape
  rw [feed_append] at hfeed
  obtain ⟨⟨depth, text, escape⟩, hfront, -⟩ := Option.bind_eq_some_iff.mp hfeed
  rw [slashesBefore_append] at hodd
  obtain rfl : escape = .backslash := (escape_eq_backslash_iff hfront).mpr hodd
  have hclose : Escaped e [')'].head? x := Escaped.before_close (b := []) (u := []) hx
  rw [List.append_assoc, completes_append hfront, completes_escaped hclose] at hcompletes
  obtain ⟨rfl, rfl⟩ : depth = 0 ∧ v = (x.reverse ++ text).reverse := by
    rcases hcompletes with hl | ⟨-, hc⟩
    · exact eq_of_step_close hl
    · exact absurd hc not_completes_nil
  refine ⟨text.reverse, by simp, ?_⟩
  intro m y b w hy hb
  have hall : front ++ e ++ (m ++ b) ++ [')'] = front ++ (e ++ m ++ (b ++ [')'])) := by simp
  rw [← completes_close_iff, hall, completes_append hfront, completes_escaped hy.before_close,
    completes_body hb]
  refine .last ?_
  rw [step_close]
  simp

/-- **A body behind a body is a body**, and denotes what the two denote, unless they share a line
end or a code. -/
theorem Body.append {a b v w : Text} (ha : Body a v) (hb : Body b w) (hline : ¬ LineEndMeets a b)
    (hcode : ∀ digits more, ¬ SharesCode a b digits more) : Body (a ++ b) (v ++ w) := by
  obtain ⟨u, c, s, hu, hfeed, hlast⟩ := (completes_close_iff.mpr ha).exists_last
  obtain ⟨rfl, hc⟩ := List.append_inj' hu rfl
  obtain rfl : ')' = c := (List.cons.inj hc).1
  obtain ⟨depth, text, escape⟩ := s
  cases escape with
  | none =>
    obtain ⟨rfl, rfl⟩ := eq_of_step_close hlast
    rw [← completes_close_iff, List.append_assoc, completes_append hfeed, completes_body hb]
    refine .last ?_
    rw [step_close]
    simp
  | backslash => cases hlast
  | lineBreak =>
    have hends := endsEscaped_of_lineBreak hfeed rfl
    obtain ⟨v', rfl, hextend⟩ := ha.extend hends (.carriageReturn (by simp))
    have hnext : ∀ c ∈ b.head?, c ≠ '\n' := by
      rintro c hc rfl
      exact hline ⟨hends, hc⟩
    simpa using hextend (m := []) (.carriageReturn hnext) hb
  | octal d =>
    obtain ⟨hends, hd⟩ := endsEscaped_of_octal hfeed rfl
    obtain ⟨v', rfl, hextend⟩ := ha.extend hends (.digit hd (by simp))
    by_cases hnext : ∀ c ∈ b.head?, isOctal c = false
    · simpa using hextend (m := []) (.digit hd hnext) hb
    · -- a second digit, which a third one does not follow
      obtain ⟨c, b, rfl, hc⟩ : ∃ c b', b = c :: b' ∧ isOctal c = true := by
        cases b <;> simp_all
      obtain ⟨w', rfl, hrest⟩ := Body.exists_of_digits (t := [c]) (by simpa using hc) hb
      have hthird : ∀ c' ∈ b.head?, isOctal c' = false := by
        intro c' hc'
        obtain ⟨b, rfl⟩ := List.head?_eq_some_iff.mp hc'
        by_contra ho
        exact hcode [d] [c, c'] ⟨hends, by simp, by simp, by simp, by simp_all, rfl⟩
      simpa using hextend (m := [c]) (.digits hd hc hthird) hrest
  | octals d e =>
    obtain ⟨hends, hd, he⟩ := endsEscaped_of_octals hfeed rfl
    obtain ⟨v', rfl, hextend⟩ := ha.extend hends (.digits hd he (by simp))
    have hnext : ∀ c ∈ b.head?, isOctal c = false := by
      intro c hc
      obtain ⟨b, rfl⟩ := List.head?_eq_some_iff.mp hc
      by_contra ho
      exact hcode [d, e] [c] ⟨hends, by simp, by simp, by simp, by simp_all, rfl⟩
    simpa using hextend (m := []) (.digits hd he hnext) hb

/-- A line feed that finds its carriage return is dropped with it. -/
theorem Body.append_of_lineEnd {a b v w : Text} (ha : Body a v) (hb : Body b w)
    (h : LineEndMeets a b) : ∃ w', w = '\n' :: w' ∧ Body (a ++ b) (v ++ w') := by
  obtain ⟨hends, hhead⟩ := h
  obtain ⟨b, rfl⟩ := List.head?_eq_some_iff.mp hhead
  obtain ⟨w', rfl, hrest⟩ := Body.exists_of_cons (by decide) (by decide) hb
  obtain ⟨v', rfl, hextend⟩ := ha.extend hends (.carriageReturn (by simp))
  refine ⟨w', rfl, ?_⟩
  simpa using hextend (m := ['\n']) .lineEnd hrest

/-- Three digits of a code that come together are the character of that code. -/
theorem Body.append_of_code {a b v w digits more : Text} (ha : Body a v) (hb : Body b w)
    (h : SharesCode a b digits more) :
    ∃ v' w' x y z, v = v' ++ digits ∧ w = more ++ w' ∧ digits ++ more = [x, y, z] ∧
      Body (a ++ b) (v' ++ octalChar x y z :: w') := by
  obtain ⟨x, y, z, hxyz⟩ := List.length_eq_three.mp h.three
  have hoctal := h.octal
  rw [hxyz] at hoctal
  obtain ⟨hx, hy, hz⟩ : isOctal x = true ∧ isOctal y = true ∧ isOctal z = true := by
    simpa using hoctal
  have hmore : ∀ d ∈ more, isOctal d = true := fun d hd => h.octal d (by simp [hd])
  have halone : Escaped digits none digits := by
    rcases digits with _ | ⟨d, _ | ⟨e, _ | ⟨f, digits⟩⟩⟩
    · exact absurd rfl h.digits_ne_nil
    · exact .digit (h.octal d (by simp)) (by simp)
    · exact .digits (h.octal d (by simp)) (h.octal e (by simp)) (by simp)
    · have hthree := h.three
      have hpos := List.length_pos_iff.mpr h.more_ne_nil
      simp only [List.length_append, List.length_cons] at hthree
      omega
  obtain ⟨rest, rfl⟩ := h.begins
  obtain ⟨w', rfl, hrest⟩ := Body.exists_of_digits hmore hb
  obtain ⟨v', rfl, hextend⟩ := ha.extend h.ends halone
  refine ⟨v', w', x, y, z, rfl, rfl, hxyz, ?_⟩
  have hcode : Escaped (digits ++ more) rest.head? [octalChar x y z] := by
    rw [hxyz]
    exact .code hx hy hz (toNat_octalChar hx hy hz)
  simpa using hextend hcode hrest

/-- A body behind a body is a body in any case. -/
theorem Body.exists_append {a b v w : Text} (ha : Body a v) (hb : Body b w) :
    ∃ u, Body (a ++ b) u := by
  by_cases hline : LineEndMeets a b
  · obtain ⟨w', -, hu⟩ := ha.append_of_lineEnd hb hline
    exact ⟨_, hu⟩
  by_cases hcode : ∃ digits more, SharesCode a b digits more
  · obtain ⟨digits, more, hcode⟩ := hcode
    obtain ⟨v', w', x, y, z, -, -, -, hu⟩ := ha.append_of_code hb hcode
    exact ⟨_, hu⟩
  · exact ⟨_, ha.append hb hline fun digits more h => hcode ⟨digits, more, h⟩⟩

end Literal

/-! ## The main statement -/

/-- Bytes between parentheses. -/
def parenthesized (bytes : List Byte) : List Byte := 0x28 :: bytes ++ [0x29]

open Literal

theorem text_parenthesized (bytes : List Byte) :
    Byte.text (parenthesized bytes) = '(' :: Byte.text bytes ++ [')'] := by
  rw [parenthesized, List.cons_append, Byte.text_cons, Byte.text_append]
  rfl

/-- Bytes between parentheses are a string if they are a body. -/
theorem spells_parenthesized_iff {bytes : List Byte} {v : Text} :
    Lexeme.Spells (Byte.text (parenthesized bytes)) none ⟨.string .literal, v⟩ ↔
      Body (Byte.text bytes) v := by
  have htext := text_parenthesized bytes
  generalize Byte.text (parenthesized bytes) = l at htext ⊢
  constructor
  · intro h
    have hc : Lexeme.Closed l ⟨.string .literal, v⟩ := h.closed_iff.mpr trivial
    cases hc with
    | literal hb =>
      obtain ⟨-, hl⟩ := List.cons.inj htext
      rwa [← List.append_cancel_right hl]
  · intro h
    rw [htext]
    exact .inl (.literal h)

/-- **Strings that are put together denote what they denote**: if each of two texts between
parentheses is a string as a whole, both of them between parentheses are. Its value is the two
values, one behind the other, unless a code or a line end of two characters has come about where
they meet. Such a line end takes the line feed from the second value. Digits that meet are a code
if they are three, and take its character's place; fewer change nothing. -/
theorem isToken_append {a b : List Byte} {v w : Text} {input input' : Input}
    (hinput : input.Delivers (parenthesized a))
    (ha : input.IsToken (parenthesized a) ⟨.string .literal, v⟩)
    (hinput' : input'.Delivers (parenthesized b))
    (hb : input'.IsToken (parenthesized b) ⟨.string .literal, w⟩) :
    ∃ u, (∀ whole : Input, whole.Delivers (parenthesized (a ++ b)) →
        whole.IsToken (parenthesized (a ++ b)) ⟨.string .literal, u⟩) ∧
      (¬ DigitsMeet (Byte.text a) (Byte.text b) → ¬ LineEndMeets (Byte.text a) (Byte.text b) →
        u = v ++ w) ∧
      (LineEndMeets (Byte.text a) (Byte.text b) → ∃ w', w = '\n' :: w' ∧ u = v ++ w') ∧
      (∀ digits more, SharesCode (Byte.text a) (Byte.text b) digits more →
        ∃ v' w' x y z, v = v' ++ digits ∧ w = more ++ w' ∧ digits ++ more = [x, y, z] ∧
          u = v' ++ octalChar x y z :: w') ∧
      (DigitsMeet (Byte.text a) (Byte.text b) →
        (∀ digits more, ¬ SharesCode (Byte.text a) (Byte.text b) digits more) → u = v ++ w) := by
  rw [isToken_iff hinput, spells_parenthesized_iff] at ha
  rw [isToken_iff hinput', spells_parenthesized_iff] at hb
  obtain ⟨u, hu⟩ := ha.exists_append hb
  refine ⟨u, ?_, ?_, ?_, ?_, ?_⟩
  · intro whole hwhole
    rw [isToken_iff hwhole, spells_parenthesized_iff, Byte.text_append]
    exact hu
  · intro hdigits hline
    exact hu.unique (ha.append hb hline fun _ _ h => hdigits h.digitsMeet)
  · intro hline
    obtain ⟨w', hw, hbody⟩ := ha.append_of_lineEnd hb hline
    exact ⟨w', hw, hu.unique hbody⟩
  · intro digits more hcode
    obtain ⟨v', w', x, y, z, hv, hw, hxyz, hbody⟩ := ha.append_of_code hb hcode
    exact ⟨v', w', x, y, z, hv, hw, hxyz, hu.unique hbody⟩
  · rintro ⟨digits, -, -, -, c, hc, ho⟩ hcode
    -- a digit is no line feed
    refine hu.unique (ha.append hb ?_ hcode)
    rintro ⟨-, hlf⟩
    obtain rfl : c = '\n' := Option.some.inj (hc.symm.trans hlf)
    cases ho

/-- `a\1`, which ends in the first digit of a code. -/
def codeFront : List Byte := [0x61, 0x5c, 0x31]

/-- `01()`, which begins with the other two. -/
def codeBack : List Byte := [0x30, 0x31, 0x28, 0x29]

theorem isToken_dividedCode :
    (Input.ofBytes (parenthesized codeFront)).IsToken (parenthesized codeFront)
        ⟨.string .literal, ['a', '1']⟩ ∧
      (Input.ofBytes (parenthesized codeBack)).IsToken (parenthesized codeBack)
        ⟨.string .literal, ['0', '1', '(', ')']⟩ ∧
      SharesCode (Byte.text codeFront) (Byte.text codeBack) ['1'] ['0', '1'] ∧
      (Input.ofBytes (parenthesized (codeFront ++ codeBack))).IsToken
        (parenthesized (codeFront ++ codeBack)) ⟨.string .literal, ['a', 'A', '(', ')']⟩ := by
  have ha : (Input.ofBytes (parenthesized codeFront)).IsToken (parenthesized codeFront)
      ⟨.string .literal, ['a', '1']⟩ := ⟨by decide +kernel, by decide +kernel, by decide +kernel⟩
  have hb : (Input.ofBytes (parenthesized codeBack)).IsToken (parenthesized codeBack)
      ⟨.string .literal, ['0', '1', '(', ')']⟩ :=
    ⟨by decide +kernel, by decide +kernel, by decide +kernel⟩
  have hcode : SharesCode (Byte.text codeFront) (Byte.text codeBack) ['1'] ['0', '1'] :=
    ⟨⟨['a', '\\'], rfl, by decide⟩, by decide, ⟨['(', ')'], rfl⟩, by decide, by simp [isOctal], rfl⟩
  refine ⟨ha, hb, hcode, ?_⟩
  obtain ⟨u, hu, -, -, hvalue, -⟩ :=
    isToken_append (Input.delivers_ofBytes _) ha (Input.delivers_ofBytes _) hb
  obtain ⟨v', w', x, y, z, hv, hw, hxyz, rfl⟩ := hvalue _ _ hcode
  obtain rfl : ['a'] = v' := List.append_inj_left' hv rfl
  obtain rfl : ['(', ')'] = w' := (List.cons.inj (List.cons.inj hw).2).2
  obtain ⟨rfl, rfl, rfl⟩ : '1' = x ∧ '0' = y ∧ '1' = z := by simpa using hxyz
  exact hu _ (Input.delivers_ofBytes _)

end PageTokens
