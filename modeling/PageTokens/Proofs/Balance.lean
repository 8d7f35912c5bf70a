import Mathlib.Data.List.DropRight
import PageTokens.Proofs.Layout

/-!
# Where a string ends

The machine reads a parenthesized string escape by escape, and an escape may take up to four
characters. Where the string ends is none the less a matter of counting: a parenthesis behind an odd
number of backslashes is escaped, and of the others the first closing one that has as many opening
as closing ones before it is the end (`Literal.EndsAt`). What an escape denotes, and how many
characters belong to it, has no part in this.

The machine is first reduced to what decides about the end: the depth, and whether a backslash
waits for its character (`Outline.step`). One invariant ties the two to the counts
(`Outline.stands_of_feed`), and the reduced machine then ends just where the law says. The main
statement is `read_string`.
-/

namespace PageTokens

namespace Advance

variable {σ τ : Type} {step : σ → Char → Advance σ τ}

/-- The last character of a text that completes a result, and the state before it. -/
theorem Completes.exists_last {s : σ} {t : Text} {r : τ} (h : Completes step s t r) :
    ∃ u c s', t = u ++ [c] ∧ feed step s u = some s' ∧ step s' c = .last r := by
  induction h with
  | @last s c r hl => exact ⟨[], c, s, rfl, rfl, hl⟩
  | @more s next c t r hm _ ih =>
    obtain ⟨u, d, s', rfl, hf, hl⟩ := ih
    exact ⟨c :: u, d, s', rfl, (feed_cons hm u).trans hf, hl⟩

/-- What is taken as a whole is taken up to every place. -/
theorem exists_feed_take {s next : σ} {t : Text} (h : feed step s t = some next) (i : Nat) :
    ∃ mid, feed step s (t.take i) = some mid := by
  rw [← List.take_append_drop i t, feed_append] at h
  obtain ⟨mid, hmid, -⟩ := Option.bind_eq_some_iff.mp h
  exact ⟨mid, hmid⟩

end Advance

namespace Literal

open Advance

/-! ## The law -/

/-- How many backslashes stand in a row right before a place. -/
def slashesBefore (t : Text) (i : Nat) : Nat :=
  ((t.take i).rtakeWhile (· = '\\')).length

/-- A character stands at a place, and no backslash there escapes it. -/
def ActiveAt (t : Text) (c : Char) (i : Nat) : Prop :=
  t[i]? = some c ∧ slashesBefore t i % 2 = 0

instance (t : Text) (c : Char) (i : Nat) : Decidable (ActiveAt t c i) :=
  inferInstanceAs (Decidable (_ ∧ _))

/-- How often a character stands before a place without being escaped. -/
def activeBefore (t : Text) (c : Char) (i : Nat) : Nat :=
  (List.range i).countP (ActiveAt t c ·)

/-- A place where a string may end: a closing parenthesis that is not escaped, with as many opening
as closing ones before it. -/
structure EndsAt (t : Text) (i : Nat) : Prop where
  /-- the closing parenthesis -/
  closes : ActiveAt t ')' i
  /-- the parentheses before it -/
  balanced : activeBefore t '(' i = activeBefore t ')' i

theorem EndsAt.lt_length {t : Text} {i : Nat} (h : EndsAt t i) : i < t.length :=
  (List.getElem?_eq_some_iff.mp h.closes.1).1

instance (t : Text) (i : Nat) : Decidable (EndsAt t i) :=
  decidable_of_iff (ActiveAt t ')' i ∧ activeBefore t '(' i = activeBefore t ')' i)
    ⟨fun h => ⟨h.1, h.2⟩, fun h => ⟨h.closes, h.balanced⟩⟩

/-- The first place where a string may end. -/
structure FirstEnd (t : Text) (i : Nat) : Prop where
  /-- it may end there -/
  ends : EndsAt t i
  /-- it may not end before -/
  first : ∀ j < i, ¬ EndsAt t j

section Counting

variable {t : Text} {c d : Char} {i : Nat}

theorem slashesBefore_succ_slash (h : t[i]? = some '\\') :
    slashesBefore t (i + 1) = slashesBefore t i + 1 := by
  rw [slashesBefore, List.take_add_one, h, Option.toList_some, List.rtakeWhile_concat_pos _ _ _ rfl,
    List.length_append]
  rfl

theorem slashesBefore_succ (h : t[i]? = some c) (hc : c ≠ '\\') : slashesBefore t (i + 1) = 0 := by
  rw [slashesBefore, List.take_add_one, h, Option.toList_some,
    List.rtakeWhile_concat_neg _ _ _ (by simpa using hc)]
  rfl

theorem activeBefore_succ :
    activeBefore t c (i + 1) = activeBefore t c i + if ActiveAt t c i then 1 else 0 := by
  rw [activeBefore, List.range_succ, List.countP_append, List.countP_singleton]
  simp only [decide_eq_true_eq]
  rfl

theorem activeBefore_succ_of_ne (h : t[i]? = some d) (hd : d ≠ c) :
    activeBefore t c (i + 1) = activeBefore t c i := by
  have hn : ¬ ActiveAt t c i := by
    rintro ⟨hc, -⟩
    exact hd (Option.some.inj (h.symm.trans hc))
  rw [activeBefore_succ, if_neg hn, Nat.add_zero]

theorem activeBefore_succ_of_odd (h : ¬ slashesBefore t i % 2 = 0) :
    activeBefore t c (i + 1) = activeBefore t c i := by
  rw [activeBefore_succ, if_neg fun ha => h ha.2, Nat.add_zero]

theorem activeBefore_succ_self (h : ActiveAt t c i) :
    activeBefore t c (i + 1) = activeBefore t c i + 1 := by
  rw [activeBefore_succ, if_pos h]

end Counting

/-! ## What decides about the end -/

/-- What of a state decides about the end of the string. -/
structure Outline where
  /-- how many parentheses within the string are open -/
  depth : Nat
  /-- whether a backslash waits for its character -/
  escaped : Bool
  deriving DecidableEq, Repr

/-- The outline of a state. Other escapes than a lone backslash wait for nothing: what they do not
claim is read as if they had not come before. -/
def State.outline (s : State) : Outline := ⟨s.depth, s.escape = .backslash⟩

namespace Outline

/-- What comes of a character. -/
def step (o : Outline) (c : Char) : Advance Outline Unit :=
  if o.escaped then .more ⟨o.depth, false⟩
  else if c = '(' then .more ⟨o.depth + 1, false⟩
  else if c = ')' then
    match o.depth with
    | 0 => .last ()
    | outer + 1 => .more ⟨outer, false⟩
  else .more ⟨o.depth, c = '\\'⟩

/-- Before the first character. -/
def start : Outline := State.outline .start

theorem step_plain (depth : Nat) (text : Text) (c : Char) :
    step ⟨depth, false⟩ c = (plainStep depth text c).map State.outline fun _ => () := by
  by_cases ho : c = '('
  · simp [step, plainStep, ho, Advance.map, State.outline]
  by_cases hc : c = ')'
  · cases depth <;> simp [step, plainStep, hc, Advance.map, State.outline]
  by_cases hs : c = '\\'
  · simp [step, plainStep, hs, Advance.map, State.outline]
  · simp [step, plainStep, ho, hc, hs, Advance.map, State.outline]

theorem outline_escapedState (depth : Nat) (text : Text) (c : Char) :
    (escapedState depth text c).outline = ⟨depth, false⟩ := by
  unfold escapedState
  repeat' split
  all_goals simp [State.outline]

/-- A character that no escape goes on with, and that is neither a parenthesis nor a backslash,
changes nothing. -/
theorem step_other {c : Char} (ho : c ≠ '(') (hc : c ≠ ')') (hs : c ≠ '\\') (depth : Nat) :
    step ⟨depth, false⟩ c = .more ⟨depth, false⟩ := by
  simp [step, ho, hc, hs]

/-- An outline goes on as the state does whose outline it is. -/
theorem step_outline (s : State) (c : Char) :
    step s.outline c = (Literal.step s c).map State.outline fun _ => () := by
  obtain ⟨depth, text, escape⟩ := s
  -- an octal digit is no character that the outline would look at
  have hoctal : isOctal c = true → step ⟨depth, false⟩ c = .more ⟨depth, false⟩ := by
    intro h
    exact step_other (ne_of_isOctal h rfl) (ne_of_isOctal h rfl) (ne_of_isOctal h rfl) depth
  cases escape with
  | none => exact step_plain depth text c
  | backslash =>
    have hs : step (State.outline ⟨depth, text, .backslash⟩) c = .more ⟨depth, false⟩ := rfl
    rw [hs, Literal.step, Advance.map, outline_escapedState]
  | lineBreak =>
    by_cases hc : c = '\n'
    · subst hc
      rfl
    · simpa [Literal.step, hc, State.outline] using step_plain depth text c
  | octal d =>
    by_cases hc : isOctal c = true
    · simpa [Literal.step, hc, State.outline, Advance.map] using hoctal hc
    · simpa [Literal.step, hc, State.outline] using step_plain depth (d :: text) c
  | octals d e =>
    by_cases hc : isOctal c = true
    · simpa [Literal.step, hc, State.outline, Advance.map] using hoctal hc
    · simpa [Literal.step, hc, State.outline] using step_plain depth (e :: d :: text) c

/-! ## The outline counts -/

/-- What an outline says about the characters before it. -/
structure Stands (t : Text) (i : Nat) (o : Outline) : Prop where
  /-- as many parentheses are open as were opened and not closed -/
  depth : activeBefore t '(' i = activeBefore t ')' i + o.depth
  /-- a backslash waits if it is none that another one escapes -/
  escaped : o.escaped = true ↔ ¬ slashesBefore t i % 2 = 0

variable {t : Text} {i : Nat} {c : Char} {o o' : Outline}

theorem stands_start (t : Text) : Stands t 0 start :=
  ⟨rfl, by simp [start, State.outline, State.start, slashesBefore]⟩

theorem Stands.even {depth : Nat} (h : Stands t i ⟨depth, false⟩) : slashesBefore t i % 2 = 0 := by
  by_contra hodd
  exact Bool.false_ne_true (h.escaped.mpr hodd)

/-- An escaped character does not count, whatever it is. -/
theorem Stands.succ_of_escaped (h : Stands t i o) (hc : t[i]? = some c) (he : o.escaped = true) :
    Stands t (i + 1) ⟨o.depth, false⟩ := by
  have hodd := h.escaped.mp he
  refine ⟨?_, ?_⟩
  · rw [activeBefore_succ_of_odd hodd, activeBefore_succ_of_odd hodd, h.depth]
  · by_cases hs : c = '\\'
    · rw [slashesBefore_succ_slash (hs ▸ hc)]
      simp only [Bool.false_eq_true, false_iff, not_not]
      omega
    · simp [slashesBefore_succ hc hs]

/-- One more character, if the string goes on behind it. -/
theorem Stands.succ (h : Stands t i o) (hc : t[i]? = some c) (hs : step o c = .more o') :
    Stands t (i + 1) o' := by
  obtain ⟨depth, escaped⟩ := o
  cases escaped with
  | true =>
    obtain rfl : _ = o' := Advance.more.inj hs
    exact h.succ_of_escaped hc rfl
  | false =>
    have heven := h.even
    have hdepth := h.depth
    by_cases ho : c = '('
    · subst ho
      obtain rfl : _ = o' := Advance.more.inj hs
      refine ⟨?_, by simp [slashesBefore_succ hc]⟩
      rw [activeBefore_succ_self ⟨hc, heven⟩, activeBefore_succ_of_ne hc (by decide)]
      simp only at hdepth ⊢
      omega
    by_cases hp : c = ')'
    · subst hp
      cases depth with
      | zero => cases hs
      | succ outer =>
        obtain rfl : _ = o' := Advance.more.inj hs
        refine ⟨?_, by simp [slashesBefore_succ hc]⟩
        rw [activeBefore_succ_self ⟨hc, heven⟩, activeBefore_succ_of_ne hc (by decide)]
        simp only at hdepth ⊢
        omega
    · simp only [step, Bool.false_eq_true, if_false, if_neg ho, if_neg hp] at hs
      obtain rfl := Advance.more.inj hs
      refine ⟨?_, ?_⟩
      · rw [activeBefore_succ_of_ne hc ho, activeBefore_succ_of_ne hc hp]
        exact hdepth
      · by_cases hb : c = '\\'
        · rw [slashesBefore_succ_slash (hb ▸ hc)]
          simp only [hb, decide_true, true_iff]
          omega
        · simp [slashesBefore_succ hc hb, hb]

/-- The outline that is reached at a place says what stands before it. -/
theorem stands_of_feed (hi : i ≤ t.length) (h : feed step start (t.take i) = some o) :
    Stands t i o := by
  induction i generalizing o with
  | zero =>
    obtain rfl := Option.some.inj h
    exact stands_start t
  | succ i ih =>
    have hc : t[i]? = some t[i] := List.getElem?_eq_getElem hi
    rw [List.take_add_one, hc, Option.toList_some, feed_append] at h
    obtain ⟨mid, hmid, hlast⟩ := Option.bind_eq_some_iff.mp h
    rw [feed] at hlast
    cases hs : step mid t[i] with
    | more next =>
      rw [hs] at hlast
      obtain rfl := Option.some.inj hlast
      exact (ih (Nat.le_of_succ_le hi) hmid).succ hc hs
    | last r => simp [hs] at hlast
    | before r => simp [hs] at hlast

/-- The last character of a string is its end by the law. -/
theorem Stands.ends (h : Stands t i o) (hc : t[i]? = some c) (hs : step o c = .last ()) :
    EndsAt t i := by
  obtain ⟨depth, escaped⟩ := o
  cases escaped with
  | true => cases hs
  | false =>
    have heven := h.even
    by_cases ho : c = '('
    · subst ho
      cases hs
    by_cases hp : c = ')'
    · subst hp
      cases depth with
      | zero => exact ⟨⟨hc, heven⟩, h.depth⟩
      | succ outer => cases hs
    · simp only [step, Bool.false_eq_true, if_false, if_neg ho, if_neg hp, reduceCtorEq] at hs

/-- Where a string may end by the law, it does. -/
theorem Stands.step_of_endsAt (h : Stands t i o) (he : EndsAt t i) : step o ')' = .last () := by
  obtain ⟨depth, escaped⟩ := o
  have hescaped : escaped = false := by
    by_contra hne
    exact h.escaped.mp (Bool.of_not_eq_false hne) he.closes.2
  have hdepth : depth = 0 := by
    have hd := h.depth
    have hb := he.balanced
    simp only at hd
    omega
  subst hescaped hdepth
  rfl

/-- What is taken without an end has none by the law. -/
theorem not_endsAt_of_feed (hi : i ≤ t.length) (h : feed step start (t.take i) = some o)
    {j : Nat} (hj : j < i) : ¬ EndsAt t j := by
  intro he
  obtain ⟨hc, -⟩ := he.closes
  have htake : (t.take i).take (j + 1) = t.take j ++ [')'] := by
    rw [List.take_take, Nat.min_eq_left hj, List.take_add_one, hc, Option.toList_some]
  obtain ⟨next, hnext⟩ := exists_feed_take h (j + 1)
  rw [htake, feed_append] at hnext
  obtain ⟨mid, hmid, hlast⟩ := Option.bind_eq_some_iff.mp hnext
  have hs := (stands_of_feed (Nat.le_trans (Nat.le_of_lt hj) hi) hmid).step_of_endsAt he
  rw [feed, hs] at hlast
  cases hlast

end Outline

/-! ## Strings and the law -/

/-- Behind a text that the machine takes as a whole, its outline is that of the text. -/
theorem feed_outline {t : Text} {s : State} (h : feed step .start t = some s) :
    feed Outline.step Outline.start (t.take t.length) = some s.outline := by
  rw [List.take_length, Outline.start, feed_map Outline.step_outline, h]
  rfl

/-- No more parentheses are open than there are characters, each of which opens one at most. -/
theorem depth_le_length {t : Text} {s : State} (h : feed step .start t = some s) :
    s.depth ≤ t.length := by
  have hdepth := (Outline.stands_of_feed (Nat.le_refl _) (feed_outline h)).depth
  have hopened : activeBefore t '(' t.length ≤ t.length :=
    List.countP_le_length.trans_eq List.length_range
  calc s.depth ≤ activeBefore t ')' t.length + s.depth := Nat.le_add_left ..
    _ = activeBefore t '(' t.length := hdepth.symm
    _ ≤ t.length := hopened

/-- A text behind an opening parenthesis in which the machine finds no end has none by the law. -/
theorem not_endsAt_of_feed {t : Text} {s : State} (h : feed step .start t = some s) (i : Nat) :
    ¬ EndsAt t i :=
  fun he => Outline.not_endsAt_of_feed (Nat.le_refl _) (feed_outline h) he.lt_length he

/-- Where the machine finds the end of a string, there is its first one by the law. -/
theorem firstEnd_of_completes {b v : Text} (h : Completes step .start (b ++ [')']) v) (u : Text) :
    FirstEnd (b ++ ')' :: u) b.length := by
  obtain ⟨b', c, o, ht, hf, hl⟩ := (h.map Outline.step_outline).exists_last
  obtain ⟨rfl, hc⟩ := List.append_inj' ht rfl
  obtain rfl : ')' = c := (List.cons.inj hc).1
  have hlength : b.length ≤ (b ++ ')' :: u).length := by simp
  have hfeed : feed Outline.step Outline.start ((b ++ ')' :: u).take b.length) = some o := by
    rw [List.take_left]
    exact hf
  have hat : (b ++ ')' :: u)[b.length]? = some ')' := by simp
  exact ⟨(Outline.stands_of_feed hlength hfeed).ends hat hl,
    fun j hj => Outline.not_endsAt_of_feed hlength hfeed hj⟩

theorem FirstEnd.unique {t : Text} {i j : Nat} (hi : FirstEnd t i) (hj : FirstEnd t j) : i = j := by
  rcases Nat.lt_trichotomy i j with h | h | h
  · exact absurd hi.ends (hj.first i h)
  · exact h
  · exact absurd hj.ends (hi.first j h)

/-! ## What has no part in it -/

/-- A text with a blank for each character that is neither a parenthesis nor a backslash. -/
def skeleton (t : Text) : Text :=
  t.map fun c => if c = '(' ∨ c = ')' ∨ c = '\\' then c else ' '

theorem skeleton_getElem? {t : Text} {c : Char} (hc : c = '(' ∨ c = ')') (i : Nat) :
    (skeleton t)[i]? = some c ↔ t[i]? = some c := by
  rw [skeleton, List.getElem?_map]
  cases ht : t[i]? with
  | none => simp
  | some d =>
    rw [Option.map_some, Option.some_inj, Option.some_inj]
    split
    · rfl
    · next hd =>
      rcases hc with rfl | rfl
      · exact iff_of_false (by decide) fun h => hd (.inl h)
      · exact iff_of_false (by decide) fun h => hd (.inr (.inl h))

theorem slashesBefore_skeleton (t : Text) (i : Nat) :
    slashesBefore (skeleton t) i = slashesBefore t i := by
  have hslash : ((· = '\\') : Char → Bool) ∘
      (fun c => if c = '(' ∨ c = ')' ∨ c = '\\' then c else ' ') = (· = '\\') := by
    funext c
    by_cases hc : c = '(' ∨ c = ')' ∨ c = '\\'
    · rw [Function.comp_apply, if_pos hc]
    · have hs : c ≠ '\\' := fun h => hc (.inr (.inr h))
      rw [Function.comp_apply, if_neg hc, decide_eq_false hs]
      rfl
  rw [slashesBefore, slashesBefore, skeleton, ← List.map_take, List.rtakeWhile, List.rtakeWhile,
    ← List.map_reverse, List.takeWhile_map, hslash, List.length_reverse, List.length_reverse,
    List.length_map]

theorem activeAt_skeleton {t : Text} {c : Char} (hc : c = '(' ∨ c = ')') (i : Nat) :
    ActiveAt (skeleton t) c i ↔ ActiveAt t c i := by
  rw [ActiveAt, ActiveAt, skeleton_getElem? hc, slashesBefore_skeleton]

theorem activeBefore_skeleton {t : Text} {c : Char} (hc : c = '(' ∨ c = ')') (i : Nat) :
    activeBefore (skeleton t) c i = activeBefore t c i := by
  simp only [activeBefore, activeAt_skeleton hc]

theorem endsAt_skeleton (t : Text) (i : Nat) : EndsAt (skeleton t) i ↔ EndsAt t i := by
  have hopen := activeBefore_skeleton (t := t) (c := '(') (.inl rfl) i
  have hclose := activeBefore_skeleton (t := t) (c := ')') (.inr rfl) i
  have hends := activeAt_skeleton (t := t) (c := ')') (.inr rfl) i
  constructor
  · rintro ⟨hc, hb⟩
    exact ⟨hends.mp hc, by rwa [hopen, hclose] at hb⟩
  · rintro ⟨hc, hb⟩
    exact ⟨hends.mpr hc, by rwa [hopen, hclose]⟩

/-- Where a string may end does not depend on other characters than parentheses and backslashes. -/
theorem endsAt_congr {t t' : Text} (h : skeleton t = skeleton t') (i : Nat) :
    EndsAt t i ↔ EndsAt t' i := by
  rw [← endsAt_skeleton t, h, endsAt_skeleton]

theorem FirstEnd.congr {t t' : Text} {i : Nat} (hi : FirstEnd t i) (h : skeleton t = skeleton t') :
    FirstEnd t' i :=
  ⟨(endsAt_congr h i).mp hi.ends, fun j hj he => hi.first j hj ((endsAt_congr h j).mpr he)⟩

end Literal

/-! ## Scanners before a string -/

/-- A scanner stands before a gap and an opening parenthesis, and these bytes are all that follows.
-/
structure Scanner.BeforeString (s : Scanner) (gap string : List Byte) : Prop where
  /-- what stands before it -/
  items : s.cursor.items = Item.ofBytes (gap ++ 0x28 :: string)
  /-- the gap before the parenthesis -/
  fills : Gap.Fills (Byte.text gap) (Byte.text (0x28 :: string))

open Literal Scanner

section Strings

variable {s : Scanner} {gap string : List Byte}

/-- A read that finds the end of a string answers with a token and stands right behind the end. -/
structure Scanner.ReadsString (s : Scanner) (gap string : List Byte) (i : Nat) : Prop where
  /-- the token -/
  answer : ∃ v, s.read.answer = .token ⟨.string .literal, v⟩
  /-- the place behind the end -/
  location : s.read.after.location = s.location.advanceAll (gap ++ 0x28 :: string.take (i + 1))
  /-- what stands behind the end -/
  items : s.read.after.cursor.items = Item.ofBytes (string.drop (i + 1))

/-- A read that does not find the end of a string names the place of its parenthesis and has come to
the end of the input. -/
structure Scanner.MissesEnd (s : Scanner) (gap string : List Byte) : Prop where
  /-- the error -/
  answer : s.read.answer = .error (.unterminated (s.location.advanceAll gap))
  /-- the place behind everything -/
  location : s.read.after.location = s.location.advanceAll (gap ++ 0x28 :: string)
  /-- nothing is left -/
  items : s.read.after.cursor.items = []

theorem Scanner.BeforeString.missesEnd (h : s.BeforeString gap string) (hu : Unclosed gap string) :
    s.MissesEnd gap string := by
  have ha := read_of_unclosed hu h.items
  have hi : s.read.after.cursor.items = [] :=
    items_of_seesEnd (.inr ⟨_, congrArg Response.one ha⟩)
  obtain ⟨bytes, hbytes, hl⟩ := s.items_read
  rw [h.items, hi, ha] at hbytes
  have hsame : Item.ofBytes (gap ++ 0x28 :: string) = Item.ofBytes bytes := by
    rw [hbytes]
    exact List.append_nil _
  have hinj : Function.Injective Item.byte := fun _ _ => Item.byte.inj
  obtain rfl := List.map_injective_iff.mpr hinj hsame
  exact ⟨ha, hl, hi⟩

theorem Scanner.BeforeString.readsString {b v : Text} {lexeme rest : List Byte}
    (h : s.BeforeString gap (lexeme ++ rest)) (hl : Byte.text lexeme = b ++ [')'])
    (hb : Body b v) : s.ReadsString gap (lexeme ++ rest) b.length := by
  have hlength : lexeme.length = b.length + 1 := by
    have := congrArg List.length hl
    simpa [Byte.text] using this
  have hspells : Lexeme.Spells (Byte.text (0x28 :: lexeme)) (Byte.text rest).head?
      ⟨.string .literal, v⟩ := by
    rw [Byte.text_cons, hl]
    exact .inl (.literal hb)
  have hp : Piece.Fits ⟨gap, 0x28 :: lexeme, ⟨.string .literal, v⟩⟩ rest := ⟨h.fills, hspells⟩
  have hi := h.items
  obtain ⟨ha, hafter, hloc⟩ := after_piece hp (s := s) (by
    rw [hi]
    simp [Piece.bytes])
  refine ⟨⟨v, ha⟩, ?_, ?_⟩
  · rw [← hlength, List.take_left]
    exact hloc
  · rw [← hlength, List.drop_left]
    exact hafter

/-- A string is read up to its first end by the law, if it has one, and is not closed if not. -/
theorem Scanner.BeforeString.cases (h : s.BeforeString gap string) :
    (∃ i, FirstEnd (Byte.text string) i ∧ s.ReadsString gap string i) ∨
      (∀ i, ¬ EndsAt (Byte.text string) i) ∧ s.MissesEnd gap string := by
  rcases Advance.feed_or_completes step_ne_before .start (Byte.text string) with
    ⟨state, hfeed⟩ | ⟨l, u, v, ht, hl⟩
  · exact .inr ⟨not_endsAt_of_feed hfeed, h.missesEnd ⟨h.fills, state, hfeed⟩⟩
  · obtain ⟨b, rfl, hb⟩ := completes_start.mp hl
    obtain ⟨lexeme, rest, rfl, hlexeme, rfl⟩ := Byte.exists_of_text_eq_append ht
    have hfirst := firstEnd_of_completes hl (Byte.text rest)
    refine .inl ⟨b.length, ?_, h.readsString hlexeme hb⟩
    rw [ht, List.append_assoc]
    exact hfirst

/-- Strings that differ in other characters than parentheses and backslashes end alike. -/
theorem Scanner.BeforeString.length_items {s' : Scanner} {gap' string' : List Byte}
    (h : s.BeforeString gap string) (h' : s'.BeforeString gap' string')
    (hs : skeleton (Byte.text string') = skeleton (Byte.text string)) :
    s'.read.after.cursor.items.length = s.read.after.cursor.items.length := by
  have hlength : string'.length = string.length := by
    have := congrArg List.length hs
    simpa [skeleton, Byte.text] using this
  rcases h.cases with ⟨i, hi, hreads⟩ | ⟨hnone, hmisses⟩ <;>
    rcases h'.cases with ⟨j, hj, hreads'⟩ | ⟨hnone', hmisses'⟩
  · obtain rfl := hi.unique (hj.congr hs)
    rw [hreads.items, hreads'.items]
    simp [Item.ofBytes, hlength]
  · exact absurd ((endsAt_congr hs i).mpr hi.ends) (hnone' i)
  · exact absurd ((endsAt_congr hs j).mp hj.ends) (hnone j)
  · rw [hmisses.items, hmisses'.items]

end Strings

/-! ## The main statement -/

/-- **A string ends where backslashes and parentheses say**: at the first closing parenthesis that
is not escaped and has as many opening as closing ones before it. There the token ends. If there is
none, the error names the opening parenthesis, and nothing of the input is left. **No other
characters matter**: strings that differ in these alone end at the same place. -/
theorem read_string {s : Scanner} {gap string : List Byte} (h : s.BeforeString gap string) :
    ((∃ v, s.read.answer = .token ⟨.string .literal, v⟩) ↔ ∃ i, EndsAt (Byte.text string) i) ∧
      (∀ i, FirstEnd (Byte.text string) i → s.ReadsString gap string i) ∧
      ((∀ i, ¬ EndsAt (Byte.text string) i) → s.MissesEnd gap string) ∧
      ∀ (s' : Scanner) (gap' string' : List Byte), s'.BeforeString gap' string' →
        skeleton (Byte.text string') = skeleton (Byte.text string) →
        s'.read.after.cursor.items.length = s.read.after.cursor.items.length := by
  have hother : ∀ (s' : Scanner) (gap' string' : List Byte), s'.BeforeString gap' string' →
      skeleton (Byte.text string') = skeleton (Byte.text string) →
      s'.read.after.cursor.items.length = s.read.after.cursor.items.length :=
    fun _ _ _ h' hs => h.length_items h' hs
  rcases h.cases with ⟨i, hi, hreads⟩ | ⟨hnone, hmisses⟩
  · refine ⟨⟨fun _ => ⟨i, hi.ends⟩, fun _ => hreads.answer⟩, ?_, ?_, hother⟩
    · intro j hj
      obtain rfl := hi.unique hj
      exact hreads
    · intro hnone
      exact absurd hi.ends (hnone i)
  · refine ⟨⟨?_, ?_⟩, ?_, fun _ => hmisses, hother⟩
    · rintro ⟨v, hv⟩
      rw [hmisses.answer] at hv
      cases hv
    · rintro ⟨i, hi⟩
      exact absurd hi (hnone i)
    · intro i hi
      exact absurd hi.ends (hnone i)

/-- A string that ends before its last character. Of its parentheses, the first closing one is
escaped, the second is not, though it stands behind two backslashes, and the third stands behind an
escaped line break. -/
def nestedString : List Byte :=
  [0x28, 0x5c, 0x31, 0x5c, 0x29, 0x5c, 0x5c, 0x29, 0x5c, 0x0d, 0x0a, 0x29, 0x63]

theorem read_nestedString :
    (start (.ofBytes (0x20 :: 0x28 :: nestedString))).BeforeString [0x20] nestedString ∧
      FirstEnd (Byte.text nestedString) 11 ∧
      (start (.ofBytes (0x20 :: 0x28 :: nestedString))).ReadsString [0x20] nestedString 11 ∧
      -- without the third there is no end
      (start (.ofBytes (0x28 :: nestedString.take 11))).MissesEnd [] (nestedString.take 11) := by
  have hbefore : (start (.ofBytes (0x20 :: 0x28 :: nestedString))).BeforeString [0x20]
      nestedString := ⟨Input.delivers_ofBytes _, .white rfl .nil⟩
  have hbefore' : (start (.ofBytes (0x28 :: nestedString.take 11))).BeforeString []
      (nestedString.take 11) := ⟨Input.delivers_ofBytes _, .nil⟩
  have hfirst : FirstEnd (Byte.text nestedString) 11 := ⟨by decide, by decide⟩
  have hnone : ∀ i, ¬ EndsAt (Byte.text (nestedString.take 11)) i := by
    have hall : ∀ i < 11, ¬ EndsAt (Byte.text (nestedString.take 11)) i := by decide
    exact fun i he => hall i he.lt_length he
  exact ⟨hbefore, hfirst, (read_string hbefore).2.1 11 hfirst,
    (read_string hbefore').2.2.1 hnone⟩

end PageTokens
