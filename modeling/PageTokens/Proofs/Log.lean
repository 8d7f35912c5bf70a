import PageTokens.Proofs.Finality

/-!
# What the log tells

A log has a line for each event, and a read makes one or two. The last of them tells how the read
ended: with a token, at the end of the input, or with an error (`Reading.outcome`). A line before it
is about a token that is not what its text had been begun as: a name that begins like a numeral, a
closing delimiter that closes nothing, a string without its terminator (`Degraded`). Such a line is
there just if the token is of one of these sorts. So a read that gives no token reports nothing but
how it ended, wherever in a token the failure came up.

Whether a string has its terminator shows in its lexeme; all else that is remarked shows in the token
itself (`degraded_iff`). The main statement is `logged_of_session`.
-/

namespace PageTokens

open Session Scanner

/-! ## Lines of a log -/

/-- The log of a read: a line for each of its events. -/
def Reading.log (r : Reading) : List String := r.events.map Event.line

/-- The log of a step of a session. -/
def Step.log (s : Step) : List String := s.events.map Event.line

/-- The line that tells how a read ended. -/
def Reading.outcome (r : Reading) : String :=
  match r.answer with
  | .token t => s!"TRACE {t.display} at {r.after.tokenStart.display}"
  | .ended => s!"TRACE end of input at {r.after.location.display}"
  | .error e => s!"DEBUG scan failed: {e.message}"

/-- The tokens that are not what their text had been begun as, and the line about each of them, given
its lexeme and the place where it begins. -/
inductive Degraded (lexeme : Text) (start : Location) : Token → String → Prop
  /-- a name that begins like a numeral -/
  | notNumeral {text : Text} : text.head?.any opensNumeral = true →
      Degraded lexeme start ⟨.name, text⟩
        s!"DEBUG '{String.ofList text}' is not a numeral, scanning as a name"
  /-- a closing delimiter that closes nothing -/
  | stray {c : Char} : c = ')' ∨ c = '>' →
      Degraded lexeme start ⟨.name, [c]⟩
        s!"DEBUG stray '{c}' at {start.display}, scanning as a name"
  /-- a hex string without its `>` -/
  | hex {value : Text} : lexeme.getLast? ≠ some '>' →
      Degraded lexeme start ⟨.string .hex, value⟩
        s!"DEBUG hex string at {start.display} closed by end of input"
  /-- a base-85 string without its `~>` -/
  | base85 {value : Text} : ¬ Lexeme.base85End <:+ lexeme.drop 2 →
      Degraded lexeme start ⟨.string .base85, value⟩
        s!"DEBUG base85 string at {start.display} closed by end of input"

/-- A read of an input has logged what there was to log: how it ended, and before that what its token
was taken for instead of what it had been begun as. -/
structure Reading.Logged (input : Input) (r : Reading) : Prop where
  /-- a line about the token, and the outcome -/
  degraded : ∀ t line, r.answer = .token t →
    Degraded ((stepOfReading r).lexeme input.bytes) r.after.tokenStart t line →
    r.log = [line, r.outcome]
  /-- the outcome, and no line before it -/
  plain : (∀ t line, r.answer = .token t →
      ¬ Degraded ((stepOfReading r).lexeme input.bytes) r.after.tokenStart t line) →
    r.log = [r.outcome]

/-! ## One read -/

namespace Lexeme

/-- The line of a remark about the token that begins at a place. -/
def remarkLine (start : Location) (remark : Remark) : String := (Event.remarked remark start).line

variable {t : Token} {l : Text} {start : Location} {line : String} {closed : Bool}

/-- What is degraded is remarked. -/
theorem remarkOf_of_degraded (h : Degraded l start t line) (hc : closed = true ↔ SelfDelimiting t l) :
    (remarkOf closed t).map (remarkLine start) = some line := by
  cases h with
  | @notNumeral text hopens =>
    have hp : text ≠ [')'] := by
      rintro rfl
      exact absurd hopens (by decide)
    have hg : text ≠ ['>'] := by
      rintro rfl
      exact absurd hopens (by decide)
    rw [remarkOf, if_neg hp, if_neg hg, if_pos hopens]
    rfl
  | stray hchar =>
    rcases hchar with rfl | rfl
    · rfl
    · rfl
  | hex hlast =>
    have hopen : closed = false := Bool.eq_false_iff.mpr fun h => hlast (hc.mp h)
    rw [hopen]
    rfl
  | base85 hlast =>
    have hopen : closed = false := Bool.eq_false_iff.mpr fun h => hlast (hc.mp h)
    rw [hopen]
    rfl

/-- A name is remarked on if it is a closing delimiter, or if it begins like a numeral. -/
theorem remarkOf_name_cases {v : Text} {remark : Remark}
    (h : remarkOf closed ⟨.name, v⟩ = some remark) :
    (∃ c, (c = ')' ∨ c = '>') ∧ v = [c] ∧ remark = .stray c) ∨
      v.head?.any opensNumeral = true ∧ remark = .notNumeral v := by
  rw [remarkOf] at h
  by_cases hp : v = [')']
  · rw [if_pos hp] at h
    exact .inl ⟨')', .inl rfl, hp, (Option.some.inj h).symm⟩
  rw [if_neg hp] at h
  by_cases hg : v = ['>']
  · rw [if_pos hg] at h
    exact .inl ⟨'>', .inr rfl, hg, (Option.some.inj h).symm⟩
  rw [if_neg hg] at h
  obtain ⟨hopens, hremark⟩ := Option.ite_none_right_eq_some.mp h
  exact .inr ⟨hopens, (Option.some.inj hremark).symm⟩

/-- What is remarked is degraded. -/
theorem degraded_of_remarkOf (h : (remarkOf closed t).map (remarkLine start) = some line)
    (hc : closed = true ↔ SelfDelimiting t l) : Degraded l start t line := by
  obtain ⟨remark, hr, rfl⟩ := Option.map_eq_some_iff.mp h
  obtain ⟨kind, value⟩ := t
  cases kind with
  | name =>
    rcases remarkOf_name_cases hr with ⟨c, hchar, rfl, rfl⟩ | ⟨hopens, rfl⟩
    · exact .stray hchar
    · exact .notNumeral hopens
  | string form =>
    cases form with
    | literal => cases hr
    | hex =>
      obtain ⟨hopen, hremark⟩ := Option.ite_none_left_eq_some.mp hr
      obtain rfl := Option.some.inj hremark
      exact .hex fun hlast => hopen (hc.mpr hlast)
    | base85 =>
      obtain ⟨hopen, hremark⟩ := Option.ite_none_left_eq_some.mp hr
      obtain rfl := Option.some.inj hremark
      exact .base85 fun hlast => hopen (hc.mpr hlast)
  | numeral => cases hr
  | literalName => cases hr
  | immediateName => cases hr
  | mark => cases hr

/-- **The token and its lexeme decide what is remarked.** -/
theorem degraded_iff (hc : closed = true ↔ SelfDelimiting t l) :
    Degraded l start t line ↔ (remarkOf closed t).map (remarkLine start) = some line :=
  ⟨fun h => remarkOf_of_degraded h hc, fun h => degraded_of_remarkOf h hc⟩

end Lexeme

open Lexeme

namespace Scanner

variable {s : Scanner} {input : Input}

/-- A read that finds a lexeme logs the remark about it, if there is one, and the token. -/
theorem log_finding (l : Lexeme) (c : Cursor) (start : Location) (failed : Bool) :
    (finding l c start failed).log =
      (l.remark.map (remarkLine start)).toList ++ [(finding l c start failed).outcome] := by
  rcases l with ⟨t, _ | remark⟩
  · rfl
  · rfl

/-- A read that finds no lexeme logs how it ended and nothing else. -/
theorem log_of_no_token (h : ∀ t, s.read.answer ≠ .token t) : s.read.log = [s.read.outcome] := by
  rcases gap_trace_cases s.cursor.items with ⟨gap, mid, hg⟩ | ⟨f, gap, rest, hg⟩
  · rcases hl : Lexeme.machine.trace .fresh mid with ⟨e, lexeme, rest⟩
    obtain ⟨c, hr, -⟩ := read_of_traces hg hl
    rw [hr] at h ⊢
    rcases e with l | ⟨_ | _⟩ | f
    · exact absurd rfl (h l.token)
    · rfl
    · rfl
    · rfl
  · obtain ⟨c, hr, -⟩ := read_of_gap_failure hg
    rw [hr]
    rfl

/-- A read that finds a token logs what is to be remarked about it. -/
theorem log_of_token {t : Token} (h : s.read.answer = .token t) (hcovers : Covers input s) :
    ∃ closed, (closed = true ↔ SelfDelimiting t ((stepOfReading s.read).lexeme input.bytes)) ∧
      s.read.log = ((remarkOf closed t).map (remarkLine s.read.after.tokenStart)).toList ++
        [s.read.outcome] := by
  obtain ⟨p, rest, left, c, closed, -, hi, hr, hc, hl, hside⟩ := exists_finding_of_read h
  have hreads := readsPiece_of_finding hi hr hc hl
  obtain rfl := Answer.token.inj (hreads.answer.symm.trans h)
  refine ⟨closed, ?_, ?_⟩
  · rw [hreads.lexeme hcovers]
    rcases hside with ⟨rfl, hclosed⟩ | ⟨rfl, hopen, -⟩
    · exact iff_of_true rfl hclosed.selfDelimiting
    · exact iff_of_false Bool.false_ne_true hopen.not_selfDelimiting
  · rw [hr]
    exact log_finding ..

/-- A read anywhere in an input logs what there is to log. -/
theorem Covers.logged (h : Covers input s) : s.read.Logged input := by
  by_cases htoken : ∃ t, s.read.answer = .token t
  · obtain ⟨t, ht⟩ := htoken
    obtain ⟨closed, hc, hlog⟩ := log_of_token ht h
    refine ⟨?_, ?_⟩
    · intro t' line ht' hdegraded
      obtain rfl := Answer.token.inj (ht.symm.trans ht')
      rw [hlog, (degraded_iff hc).mp hdegraded]
      rfl
    · intro hplain
      have hnone : (remarkOf closed t).map (remarkLine s.read.after.tokenStart) = none :=
        Option.eq_none_iff_forall_ne_some.mpr fun line hline =>
          hplain t line ht ((degraded_iff hc).mpr hline)
      rw [hlog, hnone]
      rfl
  · have hnone : ∀ t, s.read.answer ≠ .token t := not_exists.mp htoken
    exact ⟨fun t _ ht => absurd ht (hnone t), fun _ => log_of_no_token hnone⟩

/-! ## Sessions -/

/-- Who collects the tokens logs what the reads on the way log. -/
theorem events_collect (hf : s.failed = false) :
    s.collect.events = s.readings.flatMap Reading.events := by
  obtain ⟨scan, hscan⟩ := exists_yields s
  induction hscan with
  | ended ha =>
    have hn := next_of_not_failed hf
    rw [readings_of_ended ha, collect_of_ended (by rw [hn, ha]), hn]
    exact (List.append_nil _).symm
  | error ha =>
    have hn := next_of_not_failed hf
    rw [readings_of_error ha, collect_of_error (by rw [hn, ha]), hn]
    exact (List.append_nil _).symm
  | token ha _ ih =>
    have hn := next_of_not_failed hf
    rw [readings_of_token ha, collect_of_token (by rw [hn, ha]), hn, List.flatMap_cons,
      ih (failed_of_token ha hf)]

end Scanner

namespace Session

/-- The log of a request is that of the reads that it comes to. -/
theorem log_respond (s : Scanner) (request : Request) :
    (respond s request).1.log = (readsOf s request).flatMap Reading.log := by
  have hread : (stepOfReading s.read).log = [s.read].flatMap Reading.log :=
    (List.append_nil _).symm
  cases request with
  | read => exact hread
  | next =>
    cases hf : s.failed with
    | true =>
      simp only [respond, readsOf, hf, next_of_failed hf, if_true]
      rfl
    | false =>
      simp only [respond, readsOf, hf, next_of_not_failed hf, Bool.false_eq_true, if_false]
      exact hread
  | collect =>
    cases hf : s.failed with
    | true =>
      simp only [respond, readsOf, hf, collect_of_failed hf, if_true]
      rfl
    | false =>
      simp only [respond, readsOf, hf, Bool.false_eq_true, if_false, Step.log, stepOf,
        events_collect hf, List.map_flatMap]
      rfl
  | state => rfl

end Session

/-! ## Commands -/

/-- A dump tells the log of its scan what a check of the same input does, and then how many tokens
there are. -/
theorem dumpLog_of_yields {input : Input} {scan : Scan} (h : (start input).Yields scan)
    (name : String) (showLocation : Bool) :
    dumpLog input name showLocation =
      (Program.examine ⟨name, input⟩).events.map Event.record ++
        [⟨.debug, .tokens, s!"scanned {scan.found.length} tokens from {name}"⟩] := by
  have hevents : (Program.examine ⟨name, input⟩).events =
    (start input).readings.flatMap Reading.events := events_collect rfl
  have hcount : (scan.records showLocation).length = scan.found.length := List.length_map _
  simp only [dumpLog, h.records, hcount, hevents, List.map_flatMap]

/-! ## The main statement -/

/-- **The log tells everything once.** Each read of a session, of a source that may fail anywhere,
logs its outcome, and before it what its token was taken for if it is not what it had been begun as.
What a request logs is what its reads log, and nothing else. -/
theorem logged_of_session (input : Input) (requests : List Request) :
    (∀ r ∈ readsIn (.start input) requests, r.Logged input) ∧
      ∀ request, (respond (leave (.start input) requests) request).1.log =
        (readsOf (leave (.start input) requests) request).flatMap Reading.log := by
  refine ⟨?_, ?_⟩
  · intro r hr
    obtain ⟨s, hcovers, rfl⟩ := exists_covers_of_mem hr
    exact hcovers.logged
  · intro request
    exact log_respond _ request

/-- `-x`, a parenthesis that closes nothing, and `<4`, with a failed read between the last two. -/
def troubledSource : Input :=
  ⟨[.data [0x2d, 0x78, 0x29], .failure ⟨.timedOut, "too slow"⟩, .data [0x3c, 0x34]]⟩

theorem logged_troubledSource :
    (readsIn (.start troubledSource) [.read, .read, .read, .read]).map Reading.log =
      [["DEBUG '-x' is not a numeral, scanning as a name", "TRACE NAME(\"-x\") at 1:1"],
        ["DEBUG stray ')' at 1:3, scanning as a name", "TRACE NAME(\")\") at 1:3"],
        ["DEBUG scan failed: failed to read input: too slow"],
        ["DEBUG hex string at 1:4 closed by end of input", "TRACE LIT_STRING(\"40\") at 1:4"]] := by
  obtain ⟨hlogged, -⟩ := logged_of_session troubledSource [.read, .read, .read, .read]
  have hreads : readsIn (.start troubledSource) [.read, .read, .read, .read] =
      [(start troubledSource).read, (start troubledSource).read.after.read,
        (start troubledSource).read.after.read.after.read,
        (start troubledSource).read.after.read.after.read.after.read] := rfl
  rw [hreads] at hlogged ⊢
  obtain ⟨hname, hstray, hfailed, hhex, -⟩ : _ ∧ _ ∧ _ ∧ _ ∧ _ := by
    simpa only [List.forall_mem_cons] using hlogged
  have h1 := hname.degraded ⟨.name, ['-', 'x']⟩ _ (by decide +kernel) (.notNumeral rfl)
  have h2 := hstray.degraded ⟨.name, [')']⟩ _ (by decide +kernel) (.stray (.inl rfl))
  have herror : (start troubledSource).read.after.read.after.read.answer =
      .error (.read ⟨.timedOut, "too slow"⟩) := by decide +kernel
  have h3 := hfailed.plain fun t line ht => nomatch herror.symm.trans ht
  have h4 := hhex.degraded ⟨.string .hex, ['4', '0']⟩ _ (by decide +kernel) (.hex (by decide +kernel))
  rw [List.map_cons, List.map_cons, List.map_cons, List.map_cons, List.map_nil, h1, h2, h3, h4]
  decide +kernel

end PageTokens
