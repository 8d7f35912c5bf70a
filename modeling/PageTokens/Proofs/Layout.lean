import PageTokens.Proofs.Resumption

/-!
# Layout

The gaps of an input can be exchanged for others, as long as tokens that were kept apart are still
kept apart, and no comment swallows what follows it. What the tokens are depends on the lexemes
alone.

The reason is that white space and comments are to a lexeme what the end of the input is: whatever
a lexeme ends before, it ends before them (`Lexeme.Spells.before_gap`). The one exception is a
string that only the end of the input closes (`Lexeme.EndsWithInput`). The main statement is
`tokenize_relayout`.
-/

namespace PageTokens

/-! ## Gaps that end by themselves -/

namespace Gap

/-- White space and comments, of which every comment has its line break. -/
inductive Closed : Text → Prop
  /-- the empty gap -/
  | nil : Closed []
  /-- white space -/
  | white {c : Char} {gap : Text} : isWhite c = true → Closed gap → Closed (c :: gap)
  /-- a comment and the line break that ends it -/
  | comment {t gap : Text} {c : Char} : (∀ d ∈ t, isLineBreak d = false) → isLineBreak c = true →
      Closed gap → Closed ('%' :: t ++ c :: gap)

/-- A closed gap is a gap before anything. -/
theorem Closed.fills {gap : Text} (h : Closed gap) (rest : Text) : Fills gap rest := by
  induction h with
  | nil => exact .nil
  | white hc _ ih => exact .white hc ih
  | @comment t gap c ht hc _ ih =>
    have hbreak : BreaksLine (c :: gap ++ rest) := by
      intro d hd
      exact Option.some.inj hd ▸ hc
    exact .comment ht hbreak (.white (isWhite_of_isLineBreak hc) ih)

/-- Before something that is begun, a gap is closed. -/
theorem Fills.closed {gap rest : Text} (h : Fills gap rest) (hrest : Begun rest) : Closed gap := by
  induction h with
  | nil => exact .nil
  | white hc _ ih => exact .white hc (ih hrest)
  | @comment t gap rest ht hb hf ih =>
    cases gap with
    | nil => exact absurd hb hrest.not_breaksLine
    | cons c gap =>
      have hc : isLineBreak c = true := hb c rfl
      cases ih hrest with
      | white _ hgap => exact .comment ht hc hgap
      | comment => cases hc

theorem Closed.append {gap gap' : Text} (h : Closed gap) (h' : Closed gap') :
    Closed (gap ++ gap') := by
  induction h with
  | nil => exact h'
  | white hc _ ih => exact .white hc ih
  | comment ht hc _ ih =>
    rw [List.append_assoc]
    exact .comment ht hc ih

/-- A character that begins a gap. -/
def Opens (c : Char) : Prop := isWhite c = true ∨ c = '%'

/-- What begins a gap that is not empty. -/
theorem Fills.opens {gap rest : Text} (h : Fills gap rest) : ∀ c ∈ gap.head?, Opens c := by
  intro c hc
  cases h with
  | nil => cases hc
  | white hw => exact .inl (Option.some.inj hc ▸ hw)
  | comment => exact .inr (Option.some.inj hc).symm

end Gap

/-! ## Lexemes before gaps -/

namespace Lexeme

/-- The lexeme of a string that only the end of the input closes. -/
def EndsWithInput (t : Token) (l : Text) : Prop :=
  t.kind.isString = true ∧ ¬ SelfDelimiting t l

theorem endsRun_of_opens {next : Option Char} (h : ∀ c ∈ next, Gap.Opens c) : EndsRun next := by
  intro c hc
  rcases h c hc with hw | rfl
  · simp [isRegular, hw]
  · rfl

theorem ne_of_opens {next : Option Char} (h : ∀ c ∈ next, Gap.Opens c) {d : Char}
    (hw : isWhite d = false) (hp : d ≠ '%') : next ≠ some d := by
  intro hd
  rcases h d hd with hd | hd
  · simp [hw] at hd
  · exact hp hd

/-- **A lexeme ends before a gap**, and at the end of the input, as it does before anything else,
unless it is a string that only the end of the input closes. -/
theorem Spells.before_gap {l : Text} {next next' : Option Char} {t : Token} (h : Spells l next t)
    (hopens : ∀ c ∈ next', Gap.Opens c) (hend : EndsWithInput t l → next' = none) :
    Spells l next' t := by
  rcases h with h | h
  · exact .inl h
  refine .inr ?_
  have hself := h.not_selfDelimiting
  cases h with
  | run hne ht => exact .run hne ht (endsRun_of_opens hopens)
  | literalName ht =>
    exact .literalName ht (endsRun_of_opens hopens) fun _ => ne_of_opens hopens rfl (by decide)
  | immediateName ht => exact .immediateName ht (endsRun_of_opens hopens)
  | strayGreater => exact .strayGreater (ne_of_opens hopens rfl (by decide))
  | hex hb =>
    rw [hend ⟨rfl, hself⟩]
    exact .hex hb
  | base85 hv =>
    rw [hend ⟨rfl, hself⟩]
    exact .base85 hv

/-- A string that only the end of the input closes is followed by nothing. -/
theorem Spells.next_eq_none {l : Text} {next : Option Char} {t : Token} (h : Spells l next t)
    (hend : EndsWithInput t l) : next = none := by
  obtain ⟨hk, hself⟩ := hend
  rcases h with h | h
  · exact absurd h.selfDelimiting hself
  · cases h with
    | run =>
      rcases runKind_cases l with hr | ⟨form, hr⟩ <;> rw [hr] at hk <;> cases hk
    | literalName => cases hk
    | immediateName => cases hk
    | strayGreater => cases hk
    | hex => rfl
    | base85 => rfl

end Lexeme

/-! ## Other gaps for the same lexemes -/

/-- A piece whose token is a string that only the end of the input closes. -/
def Piece.EndsWithInput (p : Piece) : Prop := Lexeme.EndsWithInput p.token (Byte.text p.lexeme)

/-- The bytes of some lexemes with other gaps before them, and a gap at the end. -/
def relaid (ps : List Piece) (gaps : List (List Byte)) (last : List Byte) : List Byte :=
  (List.zipWith (fun p gap => gap ++ p.lexeme) ps gaps).flatten ++ last

/-- Gaps that may stand before the lexemes of some pieces instead of theirs, and at the end. -/
structure Relayout (ps : List Piece) (gaps : List (List Byte)) (last : List Byte) : Prop where
  /-- there is one for each -/
  length_eq : gaps.length = ps.length
  /-- a comment before a lexeme has its line break -/
  closed : ∀ gap ∈ gaps, Gap.Closed (Byte.text gap)
  /-- a comment at the end may go to the end -/
  fills : Gap.Fills (Byte.text last) []
  /-- where a gap kept two lexemes apart, the new one does -/
  separates : ∀ i, 0 < i → ∀ p gap, ps[i]? = some p → gaps[i]? = some gap →
    p.gap ≠ [] → gap ≠ []
  /-- behind a string that only the end of the input closes the input ends -/
  ends : ∀ p ∈ ps.getLast?, p.EndsWithInput → last = []

theorem Byte.head?_text_append {xs : List Byte} (h : xs ≠ []) (ys : List Byte) :
    (text (xs ++ ys)).head? = (text xs).head? := by
  cases xs with
  | nil => exact absurd rfl h
  | cons b xs => rfl

theorem Piece.Fits.lexeme_ne_nil {p : Piece} {rest : List Byte} (h : p.Fits rest) :
    p.lexeme ≠ [] := by
  obtain ⟨c, u, hl, -⟩ := h.spells.begun
  intro he
  rw [he] at hl
  cases hl

/-- The gap before a lexeme is closed. -/
theorem Piece.Fits.closed_gap {p : Piece} {rest : List Byte} (h : p.Fits rest) :
    Gap.Closed (Byte.text p.gap) := by
  obtain ⟨c, u, hl, hw, hp⟩ := h.spells.begun
  exact h.fills.closed ⟨c, u ++ Byte.text rest, by simp [hl], hw, hp⟩

/-- Behind a string that only the end of the input closes nothing is left. -/
theorem Piece.Fits.eq_nil_of_ends {p : Piece} {rest : List Byte} (h : p.Fits rest)
    (hend : p.EndsWithInput) : rest = [] :=
  List.map_eq_nil_iff.mp (List.head?_eq_none_iff.mp (h.spells.next_eq_none hend))

/-- There are no pieces in nothing. -/
theorem ScansTo.eq_nil_of_nil {ps : List Piece} {rest : List Byte} (h : ScansTo [] ps rest) :
    ps = [] := by
  generalize hb : ([] : List Byte) = bytes at h
  cases h with
  | nil => rfl
  | cons hp _ =>
    have hpos := hp.length_pos
    rw [(List.append_eq_nil_iff.mp hb.symm).1] at hpos
    exact absurd hpos (Nat.lt_irrefl 0)

theorem relaid_cons (p : Piece) (ps : List Piece) (gap : List Byte) (gaps : List (List Byte))
    (last : List Byte) :
    relaid (p :: ps) (gap :: gaps) last = gap ++ p.lexeme ++ relaid ps gaps last := by
  simp [relaid]

theorem Relayout.tail {p : Piece} {ps : List Piece} {gap : List Byte} {gaps : List (List Byte)}
    {last : List Byte} (h : Relayout (p :: ps) (gap :: gaps) last) : Relayout ps gaps last where
  length_eq := Nat.succ.inj h.length_eq
  closed := fun g hg => h.closed g (List.mem_cons_of_mem _ hg)
  fills := h.fills
  separates := fun i _ => h.separates (i + 1) (Nat.succ_pos i)
  ends := by
    intro q hq
    cases ps with
    | nil => cases hq
    | cons p' ps => exact h.ends q hq

/-- Behind the first lexeme either the same lexeme comes at once as before, or a gap or the end. -/
theorem Relayout.next {p : Piece} {ps : List Piece} {gap : List Byte} {gaps : List (List Byte)}
    {bytes rest last : List Byte} (h : Relayout (p :: ps) (gap :: gaps) last)
    (hs : ScansTo bytes ps rest) :
    (Byte.text (relaid ps gaps last)).head? = (Byte.text bytes).head? ∨
      ∀ c ∈ (Byte.text (relaid ps gaps last)).head?, Gap.Opens c := by
  cases hs with
  | nil =>
    obtain rfl := List.length_eq_zero_iff.mp h.tail.length_eq
    exact .inr h.fills.opens
  | @cons q qs s rest hq hqs =>
    obtain ⟨gap', gaps, rfl⟩ := List.exists_cons_of_length_eq_add_one h.tail.length_eq
    rw [relaid_cons, List.append_assoc]
    by_cases hgap : gap' = []
    · -- there was no gap there before
      subst hgap
      have hq' : q.gap = [] := by
        by_contra hne
        exact h.separates 1 Nat.one_pos q [] rfl rfl hne rfl
      left
      rw [Piece.bytes, hq', List.nil_append, List.nil_append,
        Byte.head?_text_append hq.lexeme_ne_nil, Byte.head?_text_append hq.lexeme_ne_nil]
    · right
      rw [Byte.head?_text_append hgap]
      exact ((h.tail.closed gap' (List.mem_cons_self ..)).fills []).opens

/-- Lexemes with other gaps are read as the same tokens. -/
theorem ScansTo.relaid {bytes rest : List Byte} {ps : List Piece} (h : ScansTo bytes ps rest)
    {gaps : List (List Byte)} {last : List Byte} (hr : Relayout ps gaps last) :
    Scans (relaid ps gaps last) (ps.map Piece.token) := by
  induction h generalizing gaps with
  | nil =>
    obtain rfl := List.length_eq_zero_iff.mp hr.length_eq
    exact scans_of_gap hr.fills
  | @cons p ps s rest hp hps ih =>
    obtain ⟨gap, gaps, rfl⟩ := List.exists_cons_of_length_eq_add_one hr.length_eq
    have hspells : Lexeme.Spells (Byte.text p.lexeme)
        (Byte.text (PageTokens.relaid ps gaps last)).head? p.token := by
      by_cases hend : p.EndsWithInput
      · -- it was the last one, and still is
        obtain rfl : s = [] := hp.eq_nil_of_ends hend
        obtain rfl : ps = [] := hps.eq_nil_of_nil
        obtain rfl := List.length_eq_zero_iff.mp hr.tail.length_eq
        obtain rfl := hr.ends p rfl hend
        exact hp.spells
      · rcases hr.next hps with heq | hopens
        · rw [heq]
          exact hp.spells
        · exact hp.spells.before_gap hopens fun he => absurd he hend
    have hfits : Piece.Fits ⟨gap, p.lexeme, p.token⟩ (PageTokens.relaid ps gaps last) :=
      ⟨(hr.closed gap (List.mem_cons_self ..)).fills _, hspells⟩
    rw [relaid_cons]
    exact scans_cons hfits (ih hr.tail)

/-! ## A gap put in -/

namespace ScansTo

variable {bytes mid rest : List Byte} {ps qs : List Piece}

theorem split (h : ScansTo bytes (ps ++ qs) rest) :
    ∃ mid, ScansTo bytes ps mid ∧ ScansTo mid qs rest := by
  induction ps generalizing bytes with
  | nil => exact ⟨bytes, .nil, h⟩
  | cons p ps ih =>
    obtain _ | ⟨hp, hps⟩ := h
    obtain ⟨mid, hfront, hback⟩ := ih hps
    exact ⟨mid, .cons hp hfront, hback⟩

theorem append (hps : ScansTo bytes ps mid) (hqs : ScansTo mid qs rest) :
    ScansTo bytes (ps ++ qs) rest := by
  induction hps with
  | nil => exact hqs
  | cons hp _ ih => exact .cons hp (ih hqs)

theorem eq_nil_of_ends (h : ScansTo bytes ps rest) :
    ∀ p ∈ ps.getLast?, p.EndsWithInput → rest = [] := by
  induction h with
  | nil =>
    intro p hp
    cases hp
  | @cons p ps s rest hp hps ih =>
    intro q hq hend
    cases hps with
    | nil =>
      obtain rfl := Option.some.inj hq
      exact hp.eq_nil_of_ends hend
    | cons => exact ih q hq hend

/-- Pieces are the same before a gap as before anything else, unless the last of them is a string
that only the end of the input closes. -/
theorem before_gap (h : ScansTo bytes ps mid) {mid' : List Byte}
    (hopens : ∀ c ∈ (Byte.text mid').head?, Gap.Opens c)
    (hend : ∀ p ∈ ps.getLast?, p.EndsWithInput → mid' = []) :
    ScansTo (ps.flatMap Piece.bytes ++ mid') ps mid' := by
  induction h with
  | nil => exact .nil
  | @cons p ps s mid hp hps ih =>
    have hends : ∀ q ∈ ps.getLast?, q.EndsWithInput → mid' = [] := by
      intro q hq
      cases ps with
      | nil => cases hq
      | cons p' ps => exact hend q hq
    have hspells : Lexeme.Spells (Byte.text p.lexeme)
        (Byte.text (ps.flatMap Piece.bytes ++ mid')).head? p.token := by
      cases ps with
      | nil =>
        refine hp.spells.before_gap hopens ?_
        intro he
        rw [List.flatMap_nil, List.nil_append, hend p rfl he]
        rfl
      | cons q qs =>
        -- the next piece begins as it did
        obtain _ | ⟨hq, -⟩ := hps
        have hne := List.length_pos_iff.mp hq.length_pos
        have hsame := hp.spells
        rw [Byte.head?_text_append hne] at hsame
        rw [List.flatMap_cons, List.append_assoc, Byte.head?_text_append hne]
        exact hsame
    rw [List.flatMap_cons, List.append_assoc]
    exact .cons ⟨hp.closed_gap.fills _, hspells⟩ (ih hends)

end ScansTo

/-- A gap may be put in between two pieces. -/
theorem scans_of_gap_between {bytes mid rest gap : List Byte} {ps qs : List Piece} {q : Piece}
    (hps : ScansTo bytes ps mid) (hqs : ScansTo mid (q :: qs) rest)
    (hrest : Gap.Fills (Byte.text rest) []) (hgap : Gap.Closed (Byte.text gap)) :
    Scans (ps.flatMap Piece.bytes ++ (gap ++ mid)) ((ps ++ q :: qs).map Piece.token) := by
  by_cases hne : gap = []
  · subst hne
    rw [List.nil_append, ← hps.eq_append]
    exact ⟨ps ++ q :: qs, rest, hps.append hqs, hrest, rfl⟩
  have hmid : mid ≠ [] := by
    rintro rfl
    exact absurd hqs.eq_nil_of_nil (List.cons_ne_nil q qs)
  have hopens : ∀ c ∈ (Byte.text (gap ++ mid)).head?, Gap.Opens c := by
    rw [Byte.head?_text_append hne]
    exact (hgap.fills []).opens
  have hfront := hps.before_gap hopens fun p hp he => absurd (hps.eq_nil_of_ends p hp he) hmid
  obtain _ | @⟨_, _, s, _, hq, hqs⟩ := hqs
  have hclosed : Gap.Closed (Byte.text (gap ++ q.gap)) := by
    rw [Byte.text_append]
    exact hgap.append hq.closed_gap
  -- what was put in belongs to the gap behind it
  have hwith : Piece.Fits ⟨gap ++ q.gap, q.lexeme, q.token⟩ s := ⟨hclosed.fills _, hq.spells⟩
  have hback := ScansTo.cons hwith hqs
  rw [Piece.bytes, List.append_assoc gap, List.append_assoc gap] at hback
  exact ⟨_, rest, hfront.append hback, hrest, by simp⟩

/-! ## The layout that shows in the reads -/

open Session Scanner

section Behind

variable {s : Scanner} {rest : List Byte}

/-- Behind a piece a scanner stands before the rest. -/
theorem after_piece {p : Piece} (h : p.Fits rest)
    (hi : s.cursor.items = Item.ofBytes (p.bytes ++ rest)) :
    s.read.answer = .token p.token ∧ s.read.after.cursor.items = Item.ofBytes rest ∧
      s.read.after.location = s.location.advanceAll p.bytes := by
  rw [Item.ofBytes_append] at hi
  obtain ⟨remark, hread⟩ := read_of_piece h
  obtain ⟨c, hr, hc, hloc⟩ := hread s _ hi (Machine.begins_ofBytes rest)
  rw [hr]
  exact ⟨rfl, hc, hloc⟩

/-- Behind pieces a scanner stands before the rest. -/
theorem ScansTo.behind {bytes : List Byte} {ps : List Piece} (h : ScansTo bytes ps rest)
    (hi : s.cursor.items = Item.ofBytes bytes) :
    (Session.behind s ps.length).cursor.items = Item.ofBytes rest ∧
      (Session.behind s ps.length).location = s.location.advanceAll (ps.flatMap Piece.bytes) := by
  induction h generalizing s with
  | nil => exact ⟨hi, rfl⟩
  | @cons p ps mid rest hp _ ih =>
    obtain ⟨-, hafter, hloc⟩ := after_piece hp hi
    obtain ⟨hitems, hbehind⟩ := ih hafter
    refine ⟨hitems, ?_⟩
    rw [List.length_cons, behind_succ, hbehind, hloc, List.flatMap_cons, Location.advanceAll_append]

end Behind

namespace Session

/-- The pieces that reads show of an input: each goes on from where the one before it ended, with a
gap up to where its token begins, and a lexeme up to where the read ended. -/
def pieces (bytes : List Byte) (offset : Nat) : List Step → List Piece
  | [] => []
  | step :: steps =>
    match step.response with
    | .one (.token t) =>
      ⟨(bytes.take step.tokenStart.offset).drop offset,
        (bytes.take step.location.offset).drop step.tokenStart.offset, t⟩ ::
          pieces bytes step.location.offset steps
    | _ => []

/-- Reads show the pieces that they read. -/
theorem pieces_of_scansTo {bytes rest : List Byte} {ps : List Piece} (h : ScansTo bytes ps rest)
    {s : Scanner} (hi : s.cursor.items = Item.ofBytes bytes) {front : List Byte}
    (hl : s.location.offset = front.length) :
    pieces (front ++ bytes) front.length (readsFrom s ps.length) = ps := by
  induction h generalizing s front with
  | nil => rfl
  | @cons p ps mid rest hp _ ih =>
    obtain ⟨hanswer, hstart, -⟩ := stepOfReading_of_piece hp hi
    obtain ⟨-, hafter, hloc⟩ := after_piece hp hi
    have hfront : s.read.after.location.offset = (front ++ p.bytes).length := by
      rw [hloc, Location.offset_advanceAll, hl, List.length_append]
    have hothers := ih hafter hfront
    have hs : (stepOfReading s.read).tokenStart.offset = (front ++ p.gap).length := by
      rw [hstart, Location.offset_advanceAll, hl, List.length_append]
    have he : (stepOfReading s.read).location.offset = (front ++ p.bytes).length := hfront
    have hresponse : (stepOfReading s.read).response = .one (.token p.token) := hanswer
    have hgap : front ++ (p.bytes ++ mid) = front ++ p.gap ++ (p.lexeme ++ mid) := by
      simp [Piece.bytes]
    have hbytes : front ++ p.bytes = front ++ p.gap ++ p.lexeme := by
      simp [Piece.bytes]
    rw [List.length_cons, readsFrom_succ, pieces, hresponse]
    simp only [hs, he]
    rw [← List.append_assoc front p.bytes mid, hothers, List.take_left, hbytes, List.drop_left,
      List.append_assoc (front ++ p.gap), List.take_left, List.drop_left]

/-- The reads of an input show the pieces that it can be taken to. -/
theorem pieces_reads {input : Input} {bytes rest : List Byte} {ps : List Piece}
    (h : input.Delivers bytes) (hps : ScansTo bytes ps rest) :
    pieces bytes 0 (reads input ps.length) = ps := by
  have hitems : (Scanner.start input).cursor.items = Item.ofBytes bytes := h
  have hnone : (Scanner.start input).location.offset = ([] : List Byte).length := rfl
  exact pieces_of_scansTo hps hitems hnone

/-- The first of some reads are the reads of that number. -/
theorem readsFrom_of_add {s : Scanner} {n k : Nat} {first more : List Step}
    (h : readsFrom s (n + k) = first ++ more) (hn : first.length = n) : readsFrom s n = first := by
  rw [readsFrom_add] at h
  refine (List.append_inj h ?_).1
  rw [readsFrom, length_run, List.length_replicate, hn]

/-- The last of some steps ends where the scanner stands behind them. -/
theorem location_behind {s : Scanner} {n : Nat} {first : List Step} {last : Step}
    (h : readsFrom s n = first ++ [last]) : last.location = (behind s n).location := by
  cases n with
  | zero =>
    have hnil : [] = first ++ [last] := h
    simp at hnil
  | succ n =>
    have hsplit : readsFrom s (n + 1) = readsFrom s n ++ [stepOfReading (behind s n).read] :=
      readsFrom_add s n 1
    rw [hsplit] at h
    obtain ⟨-, hlast⟩ := List.append_inj' h rfl
    obtain rfl := (List.cons.inj hlast).1
    have hbehind : behind s (n + 1) = (behind s n).read.after := by
      simp only [behind, List.replicate_succ', leave, List.foldl_append]
      rfl
    rw [hbehind]
    rfl

/-- A step that another one follows ends between two pieces. -/
theorem exists_split_of_reads {input : Input} {bytes rest : List Byte} {ps : List Piece}
    (h : input.Delivers bytes) (hps : ScansTo bytes ps rest) {first more : List Step} {step : Step}
    (hreads : reads input ps.length = first ++ step :: more) (hmore : more ≠ []) :
    ∃ front q back mid, ps = front ++ q :: back ∧ ScansTo bytes front mid ∧
      ScansTo mid (q :: back) rest ∧
      step.location.offset = (front.flatMap Piece.bytes).length := by
  have hlt : first.length + 1 < ps.length := by
    have hcount := congrArg List.length hreads
    rw [reads, length_run, List.length_replicate, List.length_append, List.length_cons] at hcount
    have := List.length_pos_iff.mpr hmore
    omega
  obtain ⟨q, back, hback⟩ : ∃ q back, ps.drop (first.length + 1) = q :: back :=
    ⟨_, _, List.drop_eq_getElem_cons hlt⟩
  have hfront := List.length_take_of_le (Nat.le_of_lt hlt)
  have hsplit := List.take_append_drop (first.length + 1) ps
  rw [hback] at hsplit
  generalize ps.take (first.length + 1) = front at hfront hsplit
  subst hsplit
  obtain ⟨mid, hbefore, hbehind⟩ := hps.split
  refine ⟨front, q, back, mid, rfl, hbefore, hbehind, ?_⟩
  have hsteps : readsFrom (.start input) front.length = first ++ [step] := by
    rw [List.length_append, List.append_cons] at hreads
    refine readsFrom_of_add hreads ?_
    rw [hfront, List.length_append]
    rfl
  have hitems : (Scanner.start input).cursor.items = Item.ofBytes bytes := h
  obtain ⟨-, hlocation⟩ := hbefore.behind hitems
  rw [location_behind hsteps, hlocation, Location.offset_advanceAll]
  exact Nat.zero_add _

end Session

/-- **Layout never changes the tokens**: the lexemes that the reads of an input show may be given
any other gaps that keep apart what was kept apart, and the tokens are the same. In particular a
gap may be put in behind any token that another one follows. -/
theorem tokenize_relayout {input : Input} {bytes : List Byte} (h : input.Delivers bytes)
    {ts : List Token} (ht : tokenize input = .ok ts) :
    (∀ gaps last, Relayout (pieces bytes 0 (reads input ts.length)) gaps last →
      ∀ input' : Input,
        input'.Delivers (relaid (pieces bytes 0 (reads input ts.length)) gaps last) →
        tokenize input' = .ok ts) ∧
    ∀ first step more, reads input ts.length = first ++ step :: more → more ≠ [] →
      ∀ gap, Gap.Closed (Byte.text gap) → ∀ input' : Input,
        input'.Delivers (bytes.take step.location.offset ++
          (gap ++ bytes.drop step.location.offset)) →
        tokenize input' = .ok ts := by
  obtain ⟨ps, rest, hps, hrest, rfl⟩ := scans_of_tokenize h ht
  rw [List.length_map]
  constructor
  · intro gaps last hrelayout input' h'
    rw [pieces_reads h hps] at hrelayout h'
    exact tokenize_of_scans h' (hps.relaid hrelayout)
  · intro first step more hreads hmore gap hgap input' h'
    obtain ⟨front, q, back, mid, rfl, hfront, hback, hoffset⟩ :=
      exists_split_of_reads h hps hreads hmore
    rw [hoffset, hfront.eq_append, List.take_left, List.drop_left] at h'
    exact tokenize_of_scans h' (scans_of_gap_between hfront hback hrest hgap)

/-- `(b)/d%c` and, on the next line, `<4`, which the end of the input closes. -/
def sparseLayout : List Byte :=
  [0x28, 0x62, 0x29, 0x2f, 0x64, 0x25, 0x63, 0x0a, 0x3c, 0x34]

theorem tokenize_sparseLayout :
    tokenize (.ofBytes sparseLayout) =
        .ok [⟨.string .literal, ['b']⟩, ⟨.literalName, ['d']⟩, ⟨.string .hex, ['4', '0']⟩] ∧
      -- a comment that a carriage return ends, and a blank instead of the comment
      tokenize (.ofBytes [0x28, 0x62, 0x29, 0x25, 0x0d, 0x2f, 0x64, 0x20, 0x3c, 0x34]) =
        tokenize (.ofBytes sparseLayout) ∧
      -- a blank behind the second token
      tokenize (.ofBytes [0x28, 0x62, 0x29, 0x2f, 0x64, 0x20, 0x25, 0x63, 0x0a, 0x3c, 0x34]) =
        tokenize (.ofBytes sparseLayout) := by
  have htokens : tokenize (.ofBytes sparseLayout) =
      .ok [⟨.string .literal, ['b']⟩, ⟨.literalName, ['d']⟩, ⟨.string .hex, ['4', '0']⟩] := by
    decide +kernel
  have hpieces : pieces sparseLayout 0 (reads (.ofBytes sparseLayout) 3) =
      [⟨[], [0x28, 0x62, 0x29], ⟨.string .literal, ['b']⟩⟩,
        ⟨[], [0x2f, 0x64], ⟨.literalName, ['d']⟩⟩,
        ⟨[0x25, 0x63, 0x0a], [0x3c, 0x34], ⟨.string .hex, ['4', '0']⟩⟩] := by
    decide +kernel
  have hrelayout : Relayout (pieces sparseLayout 0 (reads (.ofBytes sparseLayout) 3))
      [[], [0x25, 0x0d], [0x20]] [] := by
    rw [hpieces]
    refine ⟨rfl, ?_, .nil, ?_, fun _ _ _ => rfl⟩
    · have hcomment : Gap.Closed ['%', '\r'] := .comment (t := []) (by simp) rfl .nil
      simp only [List.forall_mem_cons, List.not_mem_nil, false_implies, implies_true, and_true]
      exact ⟨.nil, hcomment, .white rfl .nil⟩
    · intro i hi p gap hp hg hgap
      match i with
      | 1 => exact absurd (Option.some.inj hp ▸ rfl) hgap
      | 2 => exact Option.some.inj hg ▸ List.cons_ne_nil _ _
  -- the second step ends behind the second token
  have hend : (stepOfReading (behind (.start (.ofBytes sparseLayout)) 1).read).location.offset =
    5 := by decide +kernel
  obtain ⟨hany, hin⟩ := tokenize_relayout (Input.delivers_ofBytes sparseLayout) htokens
  refine ⟨htokens, ?_, ?_⟩
  · rw [htokens]
    refine hany _ _ hrelayout _ ?_
    change Input.Delivers _ (relaid (pieces sparseLayout 0 (reads (.ofBytes sparseLayout) 3)) _ _)
    rw [hpieces]
    exact Input.delivers_ofBytes _
  · rw [htokens]
    refine hin [_] (stepOfReading (behind (.start (.ofBytes sparseLayout)) 1).read) [_] rfl
      (List.cons_ne_nil _ _) [0x20] (.white rfl .nil) _ ?_
    rw [hend]
    exact Input.delivers_ofBytes _

end PageTokens
