import PageTokens.Proofs.Partition
import PageTokens.Session

/-!
# How far a scanner looks ahead

A read looks at no more than one item behind its token, and at none if the token shows its own end.
So the first reads of two sources are the same as long as the sources are the same up to there, and
a failed read is reported by the read that needs the byte that did not come (`reads_of_prefix`).

What a run of reads comes to is a matter of the pieces before the scanner (`ScansTo.run_reads`). The
last of the reads is treated on its own, since only behind its piece the sources may part: whatever
stands behind an earlier one is the beginning of the next.
-/

namespace PageTokens

/-! ## Lexemes that show their own end -/

namespace Lexeme

/-- A token is self-delimiting if its lexeme shows where it ends: a bracket, a parenthesis that
closes nothing, and a string with its closing delimiter. -/
def SelfDelimiting (t : Token) (l : Text) : Prop :=
  match t.kind with
  | .mark _ | .string .literal => True
  | .name => l = [')']
  | .string .hex => l.getLast? = some '>'
  | .string .base85 => base85End <:+ l.drop 2
  | _ => False

theorem Closed.selfDelimiting {l : Text} {t : Token} (h : Closed l t) : SelfDelimiting t l := by
  cases h with
  | mark => trivial
  | strayParenthesis => rfl
  | literal => trivial
  | hex => exact List.getLast?_concat
  | base85 => exact List.suffix_append ..

theorem Open.not_selfDelimiting {l : Text} {next : Option Char} {t : Token} (h : Open l next t) :
    ¬ SelfDelimiting t l := by
  cases h with
  | run _ ht =>
    rcases runKind_cases l with hk | ⟨form, hk⟩
    · rw [SelfDelimiting, hk]
      rintro rfl
      exact absurd (ht ')' (List.mem_singleton_self _)) (by decide)
    · rw [SelfDelimiting, hk]
      exact id
  | literalName => exact id
  | immediateName => exact id
  | strayGreater => simp [SelfDelimiting]
  | hex hb =>
    intro hs
    rcases List.mem_cons.mp (List.mem_of_getLast? hs) with hg | hg
    · exact absurd hg (by decide)
    · exact hb.unclosed hg
  | base85 hv =>
    intro hs
    exact hv hs.isInfix

/-- The self-delimiting lexemes are the closed ones. -/
theorem Spells.closed_iff {l : Text} {next : Option Char} {t : Token} (h : Spells l next t) :
    Closed l t ↔ SelfDelimiting t l := by
  constructor
  · exact Closed.selfDelimiting
  · intro hs
    refine h.resolve_right ?_
    intro ho
    exact ho.not_selfDelimiting hs

end Lexeme

/-! ## Reads in a row -/

namespace Session

/-- The steps of a number of reads from the beginning of a source. -/
def reads (input : Input) (n : Nat) : List Step := run (.start input) (.replicate n .read)

end Session

/-- A step that answers with a token. -/
def Step.Answers (s : Step) (t : Token) : Prop := s.response = .one (.token t)

/-- What a step has read of an input for its token. -/
def Step.lexeme (bytes : List Byte) (s : Step) : Text :=
  Byte.text ((bytes.take s.location.offset).drop s.tokenStart.offset)

open Session Scanner

/-! ### One read -/

section OneRead

variable {p : Piece} {rest : List Byte} {s s' : Scanner} {items : List Item}

/-- The step of a read before a piece, and what it leaves. -/
theorem step_of_piece (h : p.Fits rest) (l : Location) :
    ∃ step : Step, ∀ (s : Scanner) (items : List Item), s.location = l →
      s.cursor.items = Item.ofBytes p.bytes ++ items →
      Machine.Begins items (Byte.text rest).head? →
      stepOfReading s.read = step ∧ s.read.after.cursor.items = items ∧
        s.read.after.location = l.advanceAll p.bytes := by
  obtain ⟨remark, hread⟩ := read_of_piece h
  refine ⟨⟨.one (.token p.token), (remark.map fun r => .remarked r (l.advanceAll p.gap)).toList ++
    [.scanned p.token (l.advanceAll p.gap)], l.advanceAll p.gap, l.advanceAll p.bytes⟩, ?_⟩
  intro s items hl hi hb
  subst hl
  obtain ⟨c, hr, hc, hloc⟩ := hread s items hi hb
  rw [hr]
  exact ⟨by simp [stepOfReading, stepOf, finding, Scanner.location, hloc], hc, hloc⟩

/-- The step of a read before a piece tells the token, where it begins and where it ends. -/
theorem stepOfReading_of_piece (h : p.Fits rest)
    (hi : s.cursor.items = Item.ofBytes (p.bytes ++ rest)) :
    (stepOfReading s.read).Answers p.token ∧
      (stepOfReading s.read).tokenStart = s.location.advanceAll p.gap ∧
      (stepOfReading s.read).location = s.location.advanceAll p.bytes := by
  rw [Item.ofBytes_append] at hi
  obtain ⟨remark, hread⟩ := read_of_piece h
  obtain ⟨c, hr, -, hloc⟩ := hread s _ hi (Machine.begins_ofBytes rest)
  rw [hr]
  exact ⟨rfl, rfl, hloc⟩

/-- Behind a piece that shows its own end, nothing matters; behind any other, the first item does.
-/
theorem stepOfReading_eq_of_piece (h : p.Fits rest) (hl : s'.location = s.location)
    (hi : s.cursor.items = Item.ofBytes (p.bytes ++ rest))
    (hi' : s'.cursor.items = Item.ofBytes p.bytes ++ items)
    (hitems : items.head? = (Item.ofBytes rest).head? ∨
      Lexeme.SelfDelimiting p.token (Byte.text p.lexeme)) :
    stepOfReading s'.read = stepOfReading s.read := by
  rw [Item.ofBytes_append] at hi
  rcases hitems with hhead | hself
  · obtain ⟨step, hstep⟩ := step_of_piece h s.location
    have hb := Machine.begins_ofBytes rest
    obtain ⟨hs, -⟩ := hstep s _ rfl hi hb
    obtain ⟨hs', -⟩ := hstep s' items hl hi' (hb.congr hhead.symm)
    rw [hs, hs']
  · have hc := h.spells.closed_iff.mpr hself
    obtain ⟨c, hr, -, hloc⟩ := read_of_lexeme_trace h (hc.trace _) hi
    obtain ⟨c', hr', -, hloc'⟩ := read_of_lexeme_trace h (hc.trace _) hi'
    rw [hl] at hr' hloc'
    rw [hr, hr']
    simp [stepOfReading, stepOf, conclude, finding, Scanner.location, hloc, hloc']

/-- A failure behind a piece that does not show its own end is the answer. -/
theorem stepOfReading_of_failure (h : p.Fits rest) {f : Failure}
    (hi' : s'.cursor.items = Item.ofBytes p.bytes ++ .failure f :: items)
    (hopen : ¬ Lexeme.SelfDelimiting p.token (Byte.text p.lexeme)) :
    stepOfReading s'.read = ⟨.one (.error (.read f)), [.failed (.read f)],
      s'.location.advanceAll p.gap, s'.location.advanceAll p.bytes⟩ := by
  have hc : ¬ Lexeme.Closed (Byte.text p.lexeme) p.token := by
    intro hc
    exact hopen hc.selfDelimiting
  have ho := h.spells.resolve_left hc
  obtain ⟨c, hr, -, hloc⟩ := read_of_lexeme_trace h (ho.trace_failure f items) hi'
  rw [hr]
  simp [stepOfReading, stepOf, conclude, failing, Scanner.location, hloc]

end OneRead

/-! ### Runs of reads -/

theorem Machine.Begins.append {items : List Item} {rest : List Byte}
    (h : Begins items (Byte.text rest).head?) (bytes : List Byte) :
    Begins (Item.ofBytes bytes ++ items) (Byte.text (bytes ++ rest)).head? := by
  cases bytes with
  | nil => exact h
  | cons b bytes => rfl

namespace ScansTo

variable {bytes rest : List Byte} {ps : List Piece}

theorem eq_append (h : ScansTo bytes ps rest) : bytes = ps.flatMap Piece.bytes ++ rest := by
  induction h with
  | nil => rfl
  | cons _ _ ih => rw [List.flatMap_cons, List.append_assoc, ← ih]

/-- Reads before pieces make steps that do not depend on the scanner but for its place. -/
theorem run_reads (h : ScansTo bytes ps rest) (l : Location) :
    ∃ steps, ∀ (s : Scanner) (items : List Item), s.location = l →
      s.cursor.items = Item.ofBytes (ps.flatMap Piece.bytes) ++ items →
      Machine.Begins items (Byte.text rest).head? →
      run s (.replicate ps.length .read) = steps ∧
        (leave s (.replicate ps.length .read)).cursor.items = items ∧
        (leave s (.replicate ps.length .read)).location =
          l.advanceAll (ps.flatMap Piece.bytes) := by
  induction h generalizing l with
  | nil =>
    refine ⟨[], ?_⟩
    intro s items hl hi _
    exact ⟨rfl, hi, hl⟩
  | @cons p ps mid rest hp hps ih =>
    obtain ⟨step, hstep⟩ := step_of_piece hp l
    obtain ⟨steps, hsteps⟩ := ih (l.advanceAll p.bytes)
    refine ⟨step :: steps, ?_⟩
    intro s items hl hi hb
    rw [List.flatMap_cons, Item.ofBytes_append, List.append_assoc] at hi
    have hmid := hb.append (ps.flatMap Piece.bytes)
    rw [← hps.eq_append] at hmid
    obtain ⟨hs, hafter, hloc⟩ := hstep s _ hl hi hmid
    obtain ⟨hrun, hitems, hleave⟩ := hsteps s.read.after items hloc hafter hb
    refine ⟨?_, hitems, ?_⟩
    · exact congrArg₂ List.cons hs hrun
    · rw [List.flatMap_cons, Location.advanceAll_append]
      exact hleave

end ScansTo

/-- A read that answers with a token stands before a piece, and leaves what is behind it. -/
theorem exists_piece {s : Scanner} {bytes : List Byte} {t : Token}
    (hi : s.cursor.items = Item.ofBytes bytes) (ha : s.read.answer = .token t) :
    ∃ (p : Piece) (rest : List Byte), bytes = p.bytes ++ rest ∧ p.Fits rest ∧
      s.read.after.cursor.items = Item.ofBytes rest := by
  rcases front_cases bytes with hg | ⟨p, rest, rfl, hp⟩ | ⟨gap, string, rfl, hu⟩
  · rw [read_of_gap hg hi] at ha
    cases ha
  · obtain ⟨step, hstep⟩ := step_of_piece hp s.location
    rw [Item.ofBytes_append] at hi
    obtain ⟨-, hafter, -⟩ := hstep s _ rfl hi (Machine.begins_ofBytes rest)
    exact ⟨p, rest, rfl, hp, hafter⟩
  · rw [read_of_unclosed hu hi] at ha
    cases ha

/-- Where all reads answer with tokens, there are as many pieces. -/
theorem exists_scansTo {s : Scanner} {bytes : List Byte} {n : Nat}
    (hi : s.cursor.items = Item.ofBytes bytes)
    (h : ∀ step ∈ run s (.replicate (n + 1) .read), ∃ t, step.Answers t) :
    ∃ (ps : List Piece) (p : Piece) (rest : List Byte),
      ScansTo bytes ps (p.bytes ++ rest) ∧ p.Fits rest ∧ ps.length = n := by
  induction n generalizing s bytes with
  | zero =>
    obtain ⟨⟨t, ht⟩, -⟩ := List.forall_mem_cons.mp h
    obtain ⟨p, rest, rfl, hp, -⟩ := exists_piece hi (Response.one.inj ht)
    exact ⟨[], p, rest, .nil, hp, rfl⟩
  | succ n ih =>
    obtain ⟨⟨t, ht⟩, hmore⟩ := List.forall_mem_cons.mp h
    obtain ⟨p, rest, rfl, hp, hafter⟩ := exists_piece hi (Response.one.inj ht)
    obtain ⟨ps, q, rest, hps, hq, rfl⟩ := ih hafter hmore
    exact ⟨p :: ps, q, rest, .cons hp hps, hq, rfl⟩

/-- The last of some reads, and those before it, on any source that delivers their pieces. -/
theorem ScansTo.reads_succ {bytes rest : List Byte} {ps : List Piece} {p : Piece}
    (h : ScansTo bytes ps (p.bytes ++ rest)) (hp : p.Fits rest) :
    ∃ first, ∀ (input : Input) (items : List Item),
      input.items = Item.ofBytes (ps.flatMap Piece.bytes) ++ (Item.ofBytes p.bytes ++ items) →
      ∃ s : Scanner, reads input (ps.length + 1) = first ++ [stepOfReading s.read] ∧
        s.cursor.items = Item.ofBytes p.bytes ++ items ∧
        s.location = Location.start.advanceAll (ps.flatMap Piece.bytes) := by
  obtain ⟨first, hfirst⟩ := h.run_reads .start
  refine ⟨first, ?_⟩
  intro input items hi
  have hb : Machine.Begins (Item.ofBytes p.bytes ++ items) (Byte.text (p.bytes ++ rest)).head? := by
    obtain ⟨b, bs, hbs⟩ := List.exists_cons_of_length_pos hp.length_pos
    rw [hbs]
    rfl
  obtain ⟨hrun, hitems, hloc⟩ := hfirst (.start input) _ rfl hi hb
  refine ⟨leave (.start input) (.replicate ps.length .read), ?_, hitems, hloc⟩
  rw [reads, List.replicate_succ', run_append, hrun]
  rfl

/-- What the last of some reads tells about the bytes: those up to its end, those behind it, and its
lexeme. -/
theorem last_of_piece {front : List Byte} {p : Piece} (rest : List Byte) {last : Step}
    (hstart : last.tokenStart = (Location.start.advanceAll front).advanceAll p.gap)
    (hend : last.location = (Location.start.advanceAll front).advanceAll p.bytes) :
    (front ++ (p.bytes ++ rest)).take last.location.offset = front ++ p.bytes ∧
      (front ++ (p.bytes ++ rest)).drop last.location.offset = rest ∧
      last.lexeme (front ++ (p.bytes ++ rest)) = Byte.text p.lexeme := by
  have hs : last.tokenStart.offset = (front ++ p.gap).length := by
    rw [hstart, ← Location.advanceAll_append, Location.offset_advanceAll]
    exact Nat.zero_add _
  have he : last.location.offset = (front ++ p.bytes).length := by
    rw [hend, ← Location.advanceAll_append, Location.offset_advanceAll]
    exact Nat.zero_add _
  have htake : (front ++ (p.bytes ++ rest)).take last.location.offset = front ++ p.bytes := by
    rw [he, ← List.append_assoc, List.take_left]
  refine ⟨htake, by rw [he, ← List.append_assoc, List.drop_left], ?_⟩
  rw [Step.lexeme, htake, hs, Piece.bytes, ← List.append_assoc, List.drop_left]

/-- The last of some reads that all answer with tokens stands before a piece, as it does on any
source that delivers the same bytes up to the end of it. -/
theorem exists_last_piece {input : Input} {bytes : List Byte} (h : input.Delivers bytes) {k : Nat}
    {first : List Step} {last : Step} (hreads : reads input k = first ++ [last])
    (hall : ∀ s ∈ first ++ [last], ∃ t, s.Answers t) :
    ∃ (before : List Byte) (p : Piece) (rest : List Byte), bytes = before ++ (p.bytes ++ rest) ∧
      p.Fits rest ∧ ∀ (input' : Input) (items : List Item),
        input'.items = Item.ofBytes (before ++ p.bytes) ++ items →
        ∃ s : Scanner, reads input' k = first ++ [stepOfReading s.read] ∧
          s.cursor.items = Item.ofBytes p.bytes ++ items ∧
          s.location = Location.start.advanceAll before := by
  have hk : k = first.length + 1 := by
    have hlen := congrArg List.length hreads
    rw [reads, length_run, List.length_replicate] at hlen
    simpa using hlen
  subst hk
  rw [← hreads] at hall
  obtain ⟨ps, p, rest, hps, hp, hlen⟩ := exists_scansTo (s := .start input) h hall
  obtain ⟨front, hfront⟩ := hps.reads_succ hp
  have hbytes := hps.eq_append
  refine ⟨ps.flatMap Piece.bytes, p, rest, hbytes, hp, ?_⟩
  rw [hlen] at hfront
  -- the steps before the last are those of the source itself
  obtain ⟨s, hs, -⟩ := hfront input (Item.ofBytes rest) (by
    rw [← Item.ofBytes_append, ← Item.ofBytes_append, ← hbytes]
    exact h)
  obtain ⟨rfl, -⟩ := List.append_inj' (hreads.symm.trans hs) rfl
  intro input' items hi'
  rw [Item.ofBytes_append, List.append_assoc] at hi'
  exact hfront input' items hi'

/-- **A token depends on at most one byte behind it**, and on none if it is self-delimiting: a
source that delivers the bytes up to its end, and then the same next item, is read as the same
tokens at the same places. **A missing byte is reported by the read that needs it**: a failure at
the end of a token that is not self-delimiting is what this read answers, and the reads before it
are the same. -/
theorem reads_of_prefix {input : Input} {bytes : List Byte} (h : input.Delivers bytes) {k : Nat}
    {first : List Step} {last : Step} {t : Token} (hreads : reads input k = first ++ [last])
    (hfirst : ∀ s ∈ first, ∃ t, s.Answers t) (hlast : last.Answers t) :
    (∀ (input' : Input) (items : List Item),
      input'.items = Item.ofBytes (bytes.take last.location.offset) ++ items →
      items.head? = (Item.ofBytes (bytes.drop last.location.offset)).head? ∨
        Lexeme.SelfDelimiting t (last.lexeme bytes) →
      reads input' k = reads input k) ∧
    (¬ Lexeme.SelfDelimiting t (last.lexeme bytes) →
      ∀ (input' : Input) (f : Failure) (items : List Item),
      input'.items = Item.ofBytes (bytes.take last.location.offset) ++ .failure f :: items →
      reads input' k = first ++
        [⟨.one (.error (.read f)), [.failed (.read f)], last.tokenStart, last.location⟩]) := by
  have hall : ∀ s ∈ first ++ [last], ∃ t, s.Answers t := by
    intro s hs
    rcases List.mem_append.mp hs with hs | hs
    · exact hfirst s hs
    · exact ⟨t, List.mem_singleton.mp hs ▸ hlast⟩
  obtain ⟨before, p, rest, rfl, hp, hon⟩ := exists_last_piece h hreads hall
  -- the last read on the source itself
  obtain ⟨s, hs, hi, hloc⟩ := hon input (Item.ofBytes rest) (by
    rw [← Item.ofBytes_append, List.append_assoc]
    exact h)
  obtain ⟨-, hstep⟩ := List.append_inj' (hreads.symm.trans hs) rfl
  obtain rfl : last = stepOfReading s.read := (List.cons.inj hstep).1
  rw [← Item.ofBytes_append] at hi
  obtain ⟨htoken, hstart, hend⟩ := stepOfReading_of_piece hp hi
  obtain rfl : t = p.token := Answer.token.inj (Response.one.inj (hlast.symm.trans htoken))
  obtain ⟨htake, hdrop, hlexeme⟩ := last_of_piece rest (hloc ▸ hstart) (hloc ▸ hend)
  rw [htake, hdrop, hlexeme]
  constructor
  · intro input' items hi' hitems
    obtain ⟨s', hs', hi', hloc'⟩ := hon input' items hi'
    rw [hs, hs', stepOfReading_eq_of_piece hp (hloc'.trans hloc.symm) hi hi' hitems]
  · intro hopen input' f items hi'
    obtain ⟨s', hs', hi', hloc'⟩ := hon input' _ hi'
    rw [hs', stepOfReading_of_failure hp hi' hopen, hstart, hend, hloc, hloc']

/-- Two reads of `(a)b c`, with other things behind the blank, and with a failure in its place. -/
theorem reads_of_failure_behind_name :
    reads ⟨[.data [0x28, 0x61], .data [0x29, 0x62, 0x20], .failure ⟨.timedOut, ""⟩]⟩ 2 =
        reads ⟨[.data [0x28, 0x61, 0x29, 0x62, 0x20, 0x63]]⟩ 2 ∧
      ∃ first, reads ⟨[.data [0x28, 0x61, 0x29, 0x62], .failure ⟨.timedOut, ""⟩]⟩ 2 = first ++
        [⟨.one (.error (.read ⟨.timedOut, ""⟩)), [.failed (.read ⟨.timedOut, ""⟩)],
          ⟨3, 1, 4⟩, ⟨4, 1, 5⟩⟩] := by
  have hbody : Literal.Body (Byte.text [0x61]) ['a'] :=
    .char (by decide) (by decide) (by decide) .nil
  have hp : Piece.Fits ⟨[], [0x28, 0x61, 0x29], ⟨.string .literal, ['a']⟩⟩ [0x62, 0x20, 0x63] :=
    ⟨.nil, .inl (.literal hbody)⟩
  have hq : Piece.Fits ⟨[], [0x62], ⟨.name, ['b']⟩⟩ [0x20, 0x63] :=
    ⟨.nil, .inr (.run (by decide) (List.forall_mem_singleton.mpr rfl)
      fun _ hc => Option.some.inj hc ▸ rfl)⟩
  have hi : (Scanner.start (.ofBytes [0x28, 0x61, 0x29, 0x62, 0x20, 0x63])).cursor.items =
    Item.ofBytes ([0x28, 0x61, 0x29] ++ [0x62, 0x20, 0x63]) := Input.delivers_ofBytes _
  obtain ⟨step, hstep⟩ := step_of_piece hp .start
  obtain ⟨-, hafter, hloc⟩ := hstep _ _ rfl hi rfl
  obtain ⟨hliteral, -⟩ := stepOfReading_of_piece hp hi
  obtain ⟨hname, hstart, hend⟩ := stepOfReading_of_piece hq hafter
  rw [hloc] at hstart hend
  change _ = Location.mk 3 1 4 at hstart
  change _ = Location.mk 4 1 5 at hend
  have hfirst : ∀ s ∈ [_], ∃ t, Step.Answers s t := List.forall_mem_singleton.mpr ⟨_, hliteral⟩
  obtain ⟨hsame, hfailed⟩ := reads_of_prefix (k := 2) hi rfl hfirst hname
  rw [hend] at hsame
  rw [Step.lexeme, hstart, hend] at hfailed
  have hopen : ¬ ['b'] = [')'] := by decide
  exact ⟨hsame _ _ rfl (.inl rfl), _, hfailed hopen _ _ [] rfl⟩

end PageTokens
