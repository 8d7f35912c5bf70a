import PageTokens.Lexeme
import PageTokens.Proofs.Grammar.Gap
import PageTokens.Proofs.Grammar.Literal
import PageTokens.Proofs.Grammar.Numeral

/-!
# The grammar of lexemes

Lexemes are of two sorts. A closed one shows its own end: a bracket, a string behind its closing
delimiter (`Closed`). An open one ends because of what stands behind it, and that has to be looked
at: a run of regular characters, a name, a `>` that no second one follows, a string that has no
closing delimiter because the input ends (`Open`). In this way each lexeme is as long as it can be.

The machine reads what the grammar says: a closed lexeme whatever follows it (`Closed.completes`),
an open one before what it ends before (`Open.settles`). And the grammar leaves nothing out but a
parenthesized string without its end (`exists_spells`).
-/

namespace PageTokens

namespace Lexeme

/-! ## Lexemes as texts -/

/-- What a run of regular characters is: a numeral if it has the form of one, else a name. -/
def runKind (t : Text) : Kind :=
  match Numeral.classify? t with
  | some form => .numeral form
  | none => .name

theorem runKind_cases (t : Text) :
    runKind t = .name ∨ ∃ form, runKind t = .numeral form := by
  unfold runKind
  split
  · exact .inr ⟨_, rfl⟩
  · exact .inl rfl

/-- What may stand in a hex string: neither its end, nor, at its beginning, what would make the `<`
begin something else. -/
structure HexBody (b : Text) : Prop where
  /-- no `>` at all -/
  unclosed : '>' ∉ b
  /-- no `<` to begin with: that would be a dictionary -/
  not_dictionary : b.head? ≠ some '<'
  /-- no tilde to begin with: that would be a base-85 string -/
  not_base85 : b.head? ≠ some '~'

/-- The value of a hex string: without white space, and of even length. -/
def hexValue (b : Text) : Text :=
  let digits := b.filter fun c => !isWhite c
  if digits.length % 2 = 0 then digits else digits ++ ['0']

/-- What ends a base-85 string. -/
def base85End : Text := ['~', '>']

/-- The lexemes that show their own end. -/
inductive Closed : Text → Token → Prop
  /-- a bracket, a brace, `<<` or `>>` -/
  | mark (m : Mark) : Closed m.spelling (.ofMark m)
  /-- a closing parenthesis outside of strings -/
  | strayParenthesis : Closed [')'] ⟨.name, [')']⟩
  /-- a parenthesized string -/
  | literal {b v : Text} : Literal.Body b v → Closed ('(' :: b ++ [')']) ⟨.string .literal, v⟩
  /-- a hex string with its `>` -/
  | hex {b : Text} : HexBody b → Closed ('<' :: b ++ ['>']) ⟨.string .hex, hexValue b⟩
  /-- a base-85 string with its `~>`, the first one -/
  | base85 {v : Text} :
      ¬ base85End <:+: v → Closed ('<' :: '~' :: v ++ base85End) ⟨.string .base85, v⟩

/-- No regular character comes next. -/
def EndsRun (next : Option Char) : Prop :=
  ∀ c ∈ next, isRegular c = false

/-- The lexemes that end because of what comes next: a character, or the end of the input. -/
inductive Open : Text → Option Char → Token → Prop
  /-- a name or a numeral -/
  | run {t : Text} {next : Option Char} :
      t ≠ [] → (∀ c ∈ t, isRegular c = true) → EndsRun next → Open t next ⟨runKind t, t⟩
  /-- a literal name; if it is empty, a second slash would make it another -/
  | literalName {t : Text} {next : Option Char} :
      (∀ c ∈ t, isRegular c = true) → EndsRun next → (t = [] → next ≠ some '/') →
      Open ('/' :: t) next ⟨.literalName, t⟩
  /-- an immediate name -/
  | immediateName {t : Text} {next : Option Char} :
      (∀ c ∈ t, isRegular c = true) → EndsRun next →
      Open ('/' :: '/' :: t) next ⟨.immediateName, t⟩
  /-- a `>` that is half of nothing -/
  | strayGreater {next : Option Char} : next ≠ some '>' → Open ['>'] next ⟨.name, ['>']⟩
  /-- a hex string, with the rest of the input -/
  | hex {b : Text} : HexBody b → Open ('<' :: b) none ⟨.string .hex, hexValue b⟩
  /-- a base-85 string, with the rest of the input -/
  | base85 {v : Text} : ¬ base85End <:+: v → Open ('<' :: '~' :: v) none ⟨.string .base85, v⟩

/-- A text is the lexeme of a token before what comes next. -/
def Spells (l : Text) (next : Option Char) (t : Token) : Prop :=
  Closed l t ∨ Open l next t

/-- What is to be noted about a token, given whether its lexeme is a closed one. -/
def remarkOf (closed : Bool) (t : Token) : Option Remark :=
  match t.kind with
  | .name =>
    if t.value = [')'] then some (.stray ')')
    else if t.value = ['>'] then some (.stray '>')
    else if t.value.head?.any opensNumeral then some (.notNumeral t.value)
    else none
  | .string .hex => if closed then none else some (.unclosed .hex)
  | .string .base85 => if closed then none else some (.unclosed .base85)
  | _ => none

open Advance

/-! ## What the machine makes of a run -/

/-- A state that keeps characters of a sort keeps every text of them. -/
theorem feed_keeping {f : Text → State} {p : Char → Prop}
    (h : ∀ t c, p c → step (f t) c = .more (f (c :: t))) (t : Text) {w : Text} (hw : ∀ c ∈ w, p c) :
    feed step (f t) w = some (f (w.reverse ++ t)) := by
  induction w generalizing t with
  | nil => rfl
  | cons c w ih =>
    obtain ⟨hc, hw⟩ := List.forall_mem_cons.mp hw
    rw [feed_cons (h t c hc), ih _ hw]
    simp

theorem feed_run (t : Text) {w : Text} (h : ∀ c ∈ w, isRegular c = true) :
    feed step (.run t) w = some (.run (w.reverse ++ t)) :=
  feed_keeping (fun t c hc => by simp [step, hc]) t h

theorem feed_literalName (t : Text) {w : Text} (h : ∀ c ∈ w, isRegular c = true) :
    feed step (.literalName t) w = some (.literalName (w.reverse ++ t)) :=
  feed_keeping (fun t c hc => by simp [step, nameStep, hc]) t h

theorem feed_immediateName (t : Text) {w : Text} (h : ∀ c ∈ w, isRegular c = true) :
    feed step (.immediateName t) w = some (.immediateName (w.reverse ++ t)) :=
  feed_keeping (fun t c hc => by simp [step, nameStep, hc]) t h

/-- A delimiter is not regular. -/
theorem ne_of_isRegular {c d : Char} (hc : isRegular c = true) (hd : isRegular d = false) :
    c ≠ d := by
  rintro rfl
  simp [hc] at hd

theorem freshStep_regular {c : Char} (h : isRegular c = true) :
    step .fresh c = .more (.run [c]) := by
  have h1 : c ≠ '(' := ne_of_isRegular h rfl
  have h2 : c ≠ '<' := ne_of_isRegular h rfl
  have h3 : c ≠ '>' := ne_of_isRegular h rfl
  have h4 : c ≠ '/' := ne_of_isRegular h rfl
  have h5 : c ≠ '[' := ne_of_isRegular h rfl
  have h6 : c ≠ ']' := ne_of_isRegular h rfl
  have h7 : c ≠ '{' := ne_of_isRegular h rfl
  have h8 : c ≠ '}' := ne_of_isRegular h rfl
  have h9 : c ≠ ')' := ne_of_isRegular h rfl
  simp [step, freshStep, h1, h2, h3, h4, h5, h6, h7, h8, h9]

/-- The lexeme of a run says what the run is. -/
theorem ofRun_eq {t : Text} (hne : t ≠ []) (h : ∀ c ∈ t, isRegular c = true) :
    ofRun t = ⟨⟨runKind t, t⟩, remarkOf false ⟨runKind t, t⟩⟩ := by
  obtain ⟨c, t, rfl⟩ := List.exists_cons_of_ne_nil hne
  have hc := h c (List.mem_cons_self ..)
  have hp : c ≠ ')' := ne_of_isRegular hc rfl
  have hg : c ≠ '>' := ne_of_isRegular hc rfl
  by_cases ho : opensNumeral c = true
  · cases hk : Numeral.classify? (c :: t) with
    | some form => simp [ofRun, runKind, remarkOf, plain, ho, hk]
    | none => simp [ofRun, runKind, remarkOf, ho, hk, hp, hg]
  · cases hk : Numeral.classify? (c :: t) with
    | some form => exact absurd ((Numeral.classify?_eq_some_iff.mp hk).opens c rfl) ho
    | none => simp [ofRun, runKind, remarkOf, plain, ho, hk, hp, hg]

/-! ## What the machine makes of a string -/

theorem hexToken_eq (b : Text) :
    hexToken (b.filter fun c => !isWhite c) = ⟨.string .hex, hexValue b⟩ := by
  simp only [hexToken, hexValue]
  rcases Nat.mod_two_eq_zero_or_one (b.filter fun c => !isWhite c).length with h | h <;> simp [h]

theorem feed_hex (t : Text) {b : Text} (h : '>' ∉ b) :
    feed step (.hex t) b = some (.hex ((b.filter fun c => !isWhite c).reverse ++ t)) := by
  induction b generalizing t with
  | nil => rfl
  | cons c b ih =>
    obtain ⟨hc, hb⟩ : '>' ≠ c ∧ '>' ∉ b := by simpa using h
    by_cases hw : isWhite c = true
    · have hs : step (.hex t) c = .more (.hex t) := by simp [step, hexStep, hc.symm, hw]
      rw [feed_cons hs, ih _ hb, List.filter_cons_of_neg (by simp [hw])]
    · have hs : step (.hex t) c = .more (.hex (c :: t)) := by simp [step, hexStep, hc.symm, hw]
      rw [feed_cons hs, ih _ hb, List.filter_cons_of_pos (by simp [hw])]
      simp

/-- Behind a `<` a hex body is read as it is behind more of one. -/
theorem feed_less {c : Char} {b : Text} (h : HexBody (c :: b)) :
    feed step .less (c :: b) = feed step (.hex []) (c :: b) := by
  have hd : c ≠ '<' := fun e => h.not_dictionary (by rw [e]; rfl)
  have hb : c ≠ '~' := fun e => h.not_base85 (by rw [e]; rfl)
  simp [feed, step, hd, hb]

/-- The state behind a text of a base-85 string, last character first. A tilde is kept back. -/
def base85State : Text → State
  | '~' :: t => .tilde t
  | t => .base85 t

theorem base85State_of_ne {t : Text} (h : t.head? ≠ some '~') : base85State t = .base85 t := by
  unfold base85State
  split
  · simp at h
  · rfl

/-- A character that does not end a base-85 string belongs to it. -/
theorem step_base85State {t : Text} {c : Char} (h : ¬ (t.head? = some '~' ∧ c = '>')) :
    step (base85State t) c = .more (base85State (c :: t)) := by
  by_cases ht : t.head? = some '~'
  · obtain ⟨t, rfl⟩ := List.head?_eq_some_iff.mp ht
    have hc : c ≠ '>' := fun e => h ⟨ht, e⟩
    by_cases hcc : c = '~'
    · subst hcc
      rfl
    · have hs : base85State (c :: '~' :: t) = .base85 (c :: '~' :: t) :=
        base85State_of_ne (by simpa using hcc)
      rw [hs]
      simp [base85State, step, hc, hcc]
  · rw [base85State_of_ne ht]
    by_cases hcc : c = '~'
    · subst hcc
      rfl
    · rw [base85State_of_ne (by simpa using hcc)]
      simp [step, hcc]

theorem feed_base85State (t : Text) {v : Text} (h : ¬ base85End <:+: t.reverse ++ v) :
    feed step (base85State t) v = some (base85State (v.reverse ++ t)) := by
  induction v generalizing t with
  | nil => rfl
  | cons c v ih =>
    have hc : ¬ (t.head? = some '~' ∧ c = '>') := by
      rintro ⟨ht, rfl⟩
      obtain ⟨t, rfl⟩ := List.head?_eq_some_iff.mp ht
      exact h ⟨t.reverse, v, by simp [base85End]⟩
    rw [feed_cons (step_base85State hc), ih (c :: t) (by simpa using h)]
    simp

theorem feed_base85 {v : Text} (h : ¬ base85End <:+: v) :
    feed step .fresh ('<' :: '~' :: v) = some (base85State v.reverse) := by
  have hv := feed_base85State [] (v := v) (by simpa using h)
  simpa [feed, step, freshStep, base85State] using hv

theorem finish_base85State (t : Text) :
    finish (base85State t) = .ok (unclosed .base85 (base85Token t.reverse)) := by
  unfold base85State
  split
  · rfl
  · rfl

/-! ## The machine reads what the grammar says -/

/-- The machine is done with a closed lexeme at its last character. -/
theorem Closed.completes {l : Text} {t : Token} (h : Closed l t) :
    Completes step .fresh l ⟨t, remarkOf true t⟩ := by
  cases h with
  | mark m =>
    cases m
    case dictionaryStart =>
      have hf : step .fresh '<' = .more .less := rfl
      exact .more hf (.last rfl)
    case dictionaryEnd =>
      have hf : step .fresh '>' = .more .greater := rfl
      exact .more hf (.last rfl)
    all_goals exact .last rfl
  | strayParenthesis => exact .last rfl
  | @literal b v hb =>
    have hf : step .fresh '(' = .more (.literal .start) := rfl
    have hs := Literal.completes_start.mpr ⟨b, rfl, hb⟩
    exact .more hf (hs.map (f := State.literal) (g := fun v => plain ⟨.string .literal, v⟩)
      fun _ _ => rfl)
  | @hex b hb =>
    have hf : step .fresh '<' = .more .less := rfl
    rw [List.cons_append]
    refine .more hf ?_
    cases b with
    | nil => exact .last rfl
    | cons c b =>
      rw [completes_append ((feed_less hb).trans (feed_hex [] hb.unclosed))]
      refine .last ?_
      simp [step, hexStep, hexToken_eq, remarkOf, plain]
  | @base85 v hv =>
    rw [completes_append (feed_base85 hv), base85End]
    refine .more (step_base85State (by simp)) (.last ?_)
    simp [base85State, step, base85Token, remarkOf, plain]

/-- Behind an open lexeme the machine waits for what comes next, and ends before it. -/
theorem Open.settles {l : Text} {next : Option Char} {t : Token} (h : Open l next t) :
    ∃ s, feed step .fresh l = some s ∧ machine.Settles s ⟨t, remarkOf false t⟩ next := by
  cases h with
  | @run t next hne ht hn =>
    obtain ⟨c, w, rfl⟩ := List.exists_cons_of_ne_nil hne
    obtain ⟨hc, hw⟩ := List.forall_mem_cons.mp ht
    refine ⟨.run (w.reverse ++ [c]), ?_, ?_⟩
    · rw [feed_cons (freshStep_regular hc), feed_run [c] hw]
    · rw [← ofRun_eq hne ht]
      cases next with
      | none => simp [Machine.Settles, machine, finish]
      | some d => simp [Machine.Settles, machine, step, hn d rfl]
  | @literalName t next ht hn hs =>
    have hf : step .fresh '/' = .more .slash := rfl
    cases t with
    | nil =>
      -- the machine is still behind the slash, where another one would belong to the lexeme
      refine ⟨.slash, rfl, ?_⟩
      cases next with
      | none => rfl
      | some d =>
        have hd : d ≠ '/' := fun e => hs rfl (by rw [e])
        simp [Machine.Settles, machine, step, nameStep, hd, hn d rfl, plain, remarkOf]
    | cons c w =>
      obtain ⟨hc, hw⟩ := List.forall_mem_cons.mp ht
      have hc' : c ≠ '/' := ne_of_isRegular hc rfl
      have hfc : step .slash c = .more (.literalName [c]) := by simp [step, nameStep, hc, hc']
      refine ⟨.literalName (w.reverse ++ [c]), ?_, ?_⟩
      · rw [feed_cons hf, feed_cons hfc, feed_literalName [c] hw]
      · cases next with
        | none => simp [Machine.Settles, machine, finish, plain, remarkOf]
        | some d => simp [Machine.Settles, machine, step, nameStep, hn d rfl, plain, remarkOf]
  | @immediateName t next ht hn =>
    refine ⟨.immediateName t.reverse, ?_, ?_⟩
    · have := feed_immediateName [] ht
      simpa [feed, step, freshStep] using this
    · cases next with
      | none => simp [Machine.Settles, machine, finish, plain, remarkOf]
      | some d => simp [Machine.Settles, machine, step, nameStep, hn d rfl, plain, remarkOf]
  | @strayGreater next hn =>
    refine ⟨.greater, rfl, ?_⟩
    cases next with
    | none => rfl
    | some d =>
      have hd : d ≠ '>' := fun e => hn (by rw [e])
      simp [Machine.Settles, machine, step, hd, stray, remarkOf]
  | @hex b hb =>
    have hf : step .fresh '<' = .more .less := rfl
    cases b with
    | nil => exact ⟨.less, rfl, rfl⟩
    | cons c b =>
      refine ⟨_, (feed_cons hf _).trans ((feed_less hb).trans (feed_hex [] hb.unclosed)), ?_⟩
      simp [Machine.Settles, machine, finish, hexToken_eq, unclosed, remarkOf]
  | @base85 v hv =>
    refine ⟨_, feed_base85 hv, ?_⟩
    simp [Machine.Settles, machine, finish_base85State, unclosed, base85Token, remarkOf]

/-- A closed lexeme is read whatever comes behind it. -/
theorem Closed.trace {l : List Byte} {t : Token} (h : Closed (Byte.text l) t) (items : List Item) :
    machine.trace .fresh (Item.ofBytes l ++ items) = ⟨.done ⟨t, remarkOf true t⟩, l, items⟩ :=
  Machine.trace_of_completes h.completes items

/-- An open lexeme is read if what comes behind it begins as it should. -/
theorem Open.trace {l : List Byte} {next : Option Char} {t : Token}
    (h : Open (Byte.text l) next t) {items : List Item} (hi : Machine.Begins items next) :
    machine.trace .fresh (Item.ofBytes l ++ items) = ⟨.done ⟨t, remarkOf false t⟩, l, items⟩ := by
  obtain ⟨s, hf, hs⟩ := h.settles
  rw [Machine.trace_of_feed hf, Machine.trace_of_settles hs hi]
  simp [Machine.Trace.behind]

/-- A failed read behind an open lexeme is met by the read of that lexeme. -/
theorem Open.trace_failure {l : List Byte} {next : Option Char} {t : Token}
    (h : Open (Byte.text l) next t) (f : Failure) (items : List Item) :
    machine.trace .fresh (Item.ofBytes l ++ .failure f :: items) = ⟨.failed f, l, items⟩ := by
  obtain ⟨s, hf, -⟩ := h.settles
  rw [Machine.trace_of_feed hf]
  simp [Machine.Trace.behind, Machine.trace]

/-- What a lexeme is read as does not depend on what comes behind the first item there. -/
theorem Spells.trace {l : List Byte} {next : Option Char} {t : Token}
    (h : Spells (Byte.text l) next t) :
    ∃ closed, ∀ items, Machine.Begins items next →
      machine.trace .fresh (Item.ofBytes l ++ items) =
        ⟨.done ⟨t, remarkOf closed t⟩, l, items⟩ := by
  rcases h with h | h
  · refine ⟨true, ?_⟩
    intro items _
    exact h.trace items
  · refine ⟨false, ?_⟩
    intro items hi
    exact h.trace hi

/-! ## The grammar leaves nothing out -/

theorem begun_of_isRegular {c : Char} (h : isRegular c = true) (t : Text) : Gap.Begun (c :: t) := by
  obtain ⟨hw, -⟩ := isRegular_iff.mp h
  exact ⟨c, t, rfl, hw, ne_of_isRegular h rfl⟩

/-- A lexeme begins something: it is not empty, and no gap begins it. -/
theorem Spells.begun {l : Text} {next : Option Char} {t : Token} (h : Spells l next t) :
    Gap.Begun l := by
  rcases h with h | h
  · cases h with
    | mark m => cases m <;> exact ⟨_, _, rfl, rfl, by decide⟩
    | strayParenthesis => exact ⟨_, _, rfl, rfl, by decide⟩
    | literal => exact ⟨_, _, rfl, rfl, by decide⟩
    | hex => exact ⟨_, _, rfl, rfl, by decide⟩
    | base85 => exact ⟨_, _, rfl, rfl, by decide⟩
  · cases h with
    | @run t next hne ht =>
      obtain ⟨c, t, rfl⟩ := List.exists_cons_of_ne_nil hne
      exact begun_of_isRegular (ht c (List.mem_cons_self ..)) t
    | literalName => exact ⟨_, _, rfl, rfl, by decide⟩
    | immediateName => exact ⟨_, _, rfl, rfl, by decide⟩
    | strayGreater => exact ⟨_, _, rfl, rfl, by decide⟩
    | hex => exact ⟨_, _, rfl, rfl, by decide⟩
    | base85 => exact ⟨_, _, rfl, rfl, by decide⟩

/-- A run goes on to the first character that is not regular. -/
theorem exists_run (t : Text) :
    ∃ w u, t = w ++ u ∧ (∀ c ∈ w, isRegular c = true) ∧ EndsRun u.head? := by
  refine ⟨t.takeWhile isRegular, t.dropWhile isRegular, ?_, ?_, ?_⟩
  · exact (List.takeWhile_append_dropWhile ..).symm
  · intro c hc
    exact List.mem_takeWhile_imp hc
  · intro c hc
    have := List.head?_dropWhile_not isRegular t
    rw [Option.mem_def.mp hc] at this
    simpa using this

/-- A base-85 string goes on to the first `~>`, if there is one. -/
theorem exists_base85 (t : Text) :
    (∃ v u, t = v ++ (base85End ++ u) ∧ ¬ base85End <:+: v) ∨ ¬ base85End <:+: t := by
  induction t with
  | nil => exact .inr (by simp [base85End])
  | cons c t ih =>
    by_cases hp : base85End <+: c :: t
    · obtain ⟨u, hu⟩ := hp
      exact .inl ⟨[], u, hu.symm, by simp [base85End]⟩
    · rcases ih with ⟨v, u, rfl, hv⟩ | ht
      · refine .inl ⟨c :: v, u, rfl, ?_⟩
        rw [List.infix_cons_iff]
        rintro (h | h)
        · exact hp (h.trans ⟨base85End ++ u, rfl⟩)
        · exact hv h
      · refine .inr ?_
        rw [List.infix_cons_iff]
        exact not_or.mpr ⟨hp, ht⟩

/-- What begins with `<~` is a base-85 string. -/
theorem exists_spells_base85 (t : Text) :
    ∃ l u v, '<' :: '~' :: t = l ++ u ∧ Spells l u.head? ⟨.string .base85, v⟩ := by
  rcases exists_base85 t with ⟨v, u, rfl, hv⟩ | ht
  · exact ⟨_, u, v, by simp, .inl (.base85 hv)⟩
  · exact ⟨_, [], t, by simp, .inr (.base85 ht)⟩

/-- What begins with `<` is a lexeme. -/
theorem exists_spells_less (t : Text) :
    ∃ l u tok, '<' :: t = l ++ u ∧ Spells l u.head? tok := by
  by_cases hd : t.head? = some '<'
  · obtain ⟨u, rfl⟩ := List.head?_eq_some_iff.mp hd
    exact ⟨_, u, _, rfl, .inl (.mark .dictionaryStart)⟩
  by_cases hb : t.head? = some '~'
  · obtain ⟨t, rfl⟩ := List.head?_eq_some_iff.mp hb
    obtain ⟨l, u, v, hlu, hv⟩ := exists_spells_base85 t
    exact ⟨l, u, _, hlu, hv⟩
  by_cases hg : '>' ∈ t
  · obtain ⟨b, u, rfl, hbody⟩ := List.eq_append_cons_of_mem hg
    have hbody : HexBody b :=
      ⟨hbody, by cases b <;> simp_all, by cases b <;> simp_all⟩
    exact ⟨'<' :: b ++ ['>'], u, _, by simp, .inl (.hex hbody)⟩
  · exact ⟨_, [], _, by simp, .inr (.hex ⟨hg, hd, hb⟩)⟩

/-- What begins with `/` is a lexeme. -/
theorem exists_spells_slash (t : Text) :
    ∃ l u tok, '/' :: t = l ++ u ∧ Spells l u.head? tok := by
  by_cases hs : t.head? = some '/'
  · obtain ⟨t, rfl⟩ := List.head?_eq_some_iff.mp hs
    obtain ⟨w, u, rfl, hw, hu⟩ := exists_run t
    exact ⟨'/' :: '/' :: w, u, _, rfl, .inr (.immediateName hw hu)⟩
  · obtain ⟨w, u, rfl, hw, hu⟩ := exists_run t
    refine ⟨'/' :: w, u, _, rfl, .inr (.literalName hw hu ?_)⟩
    rintro rfl
    exact hs

/-- What begins something begins with a lexeme, unless it is a parenthesis whose string the machine
does not come to the end of. -/
theorem exists_spells {t : Text} (h : Gap.Begun t) :
    (∃ l u tok, t = l ++ u ∧ Spells l u.head? tok) ∨
      ∃ u s, t = '(' :: u ∧ feed Literal.step .start u = some s := by
  obtain ⟨c, t, rfl, hw, hp⟩ := h
  by_cases hr : isRegular c = true
  · obtain ⟨w, u, rfl, hwr, hu⟩ := exists_run t
    have hcw : ∀ d ∈ c :: w, isRegular d = true := List.forall_mem_cons.mpr ⟨hr, hwr⟩
    exact .inl ⟨c :: w, u, _, rfl, .inr (.run (by simp) hcw hu)⟩
  have hd : isDelimiter c = true := by
    by_contra hd
    exact hr (isRegular_iff.mpr ⟨hw, by simpa using hd⟩)
  simp only [isDelimiter, Bool.or_eq_true, beq_iff_eq, hp, or_false] at hd
  rcases hd with (((((((rfl | rfl) | rfl) | rfl) | rfl) | rfl) | rfl) | rfl) | rfl
  · -- a parenthesized string ends, or is read to the end of the input
    rcases feed_or_completes Literal.step_ne_before .start t with ⟨s, hs⟩ | ⟨l, u, v, rfl, hv⟩
    · exact .inr ⟨t, s, rfl, hs⟩
    · obtain ⟨b, rfl, hb⟩ := Literal.completes_start.mp hv
      exact .inl ⟨'(' :: b ++ [')'], u, _, rfl, .inl (.literal hb)⟩
  · exact .inl ⟨[')'], t, _, rfl, .inl .strayParenthesis⟩
  · exact .inl (exists_spells_less t)
  · by_cases hg : t.head? = some '>'
    · obtain ⟨u, rfl⟩ := List.head?_eq_some_iff.mp hg
      exact .inl ⟨_, u, _, rfl, .inl (.mark .dictionaryEnd)⟩
    · exact .inl ⟨['>'], t, _, rfl, .inr (.strayGreater hg)⟩
  · exact .inl ⟨['['], t, _, rfl, .inl (.mark .arrayStart)⟩
  · exact .inl ⟨[']'], t, _, rfl, .inl (.mark .arrayEnd)⟩
  · exact .inl ⟨['{'], t, _, rfl, .inl (.mark .procedureStart)⟩
  · exact .inl ⟨['}'], t, _, rfl, .inl (.mark .procedureEnd)⟩
  · exact .inl (exists_spells_slash t)

/-- A string that the machine does not come to the end of is rejected at the end of the input. -/
theorem trace_of_unterminated {bytes : List Byte} {s : Literal.State}
    (h : feed Literal.step .start (Byte.text bytes) = some s) :
    ∀ {b : Byte}, b.char = '(' →
    machine.trace .fresh (Item.ofBytes (b :: bytes)) =
      ⟨.rejected .parenthesis, b :: bytes, []⟩ := by
  intro b hb
  have hs : feed step .fresh (Byte.text (b :: bytes)) = some (.literal s) := by
    have hf : step .fresh '(' = .more (.literal .start) := rfl
    rw [Byte.text_cons, hb, feed_cons hf,
      feed_map (f := State.literal) (g := fun v => plain ⟨.string .literal, v⟩) (fun _ _ => rfl), h]
    rfl
  have ht := Machine.trace_of_feed (m := machine) hs []
  rw [List.append_nil] at ht
  rw [ht]
  simp [Machine.Trace.behind, Machine.trace, machine, finish, Ending.ofFinish]

end Lexeme

end PageTokens
