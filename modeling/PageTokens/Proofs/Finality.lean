import Mathlib.Data.List.Forall2
import PageTokens.Proofs.Consumers
import PageTokens.Proofs.Vocabulary

/-!
# What is final

There are two ways for a scanner to be through. It has found the end of its input: then every read
finds it again, whatever the source would still deliver. Or a read has failed: then nothing more is
given to who asks for the next token or for all of them, though who insists on reading may well be
answered. The first is a matter of the cursor, which keeps the end for good and forgets a failure;
the second one of the flag that a failed read leaves behind, which nothing takes away.

What a session asks comes to a sequence of reads (`Session.readsIn`), each of the scanner that the
one before it left (`Scanner.Leads`), and what every read preserves is preserved by all that can be
asked (`Scanner.Leads.induction`). The main statement is `requests_final`.
-/

namespace PageTokens

/-! ## The reads of a session -/

namespace Scanner

/-- Some reads in a row lead from one scanner to another. -/
inductive Leads : Scanner → List Reading → Scanner → Prop
  /-- no read -/
  | nil {s : Scanner} : Leads s [] s
  /-- a first read, and reads behind it -/
  | cons {s s' : Scanner} {rs : List Reading} :
      Leads s.read.after rs s' → Leads s (s.read :: rs) s'

variable {s s' s'' : Scanner} {rs rs' : List Reading}

theorem Leads.append (h : Leads s rs s') (h' : Leads s' rs' s'') : Leads s (rs ++ rs') s'' := by
  induction h with
  | nil => exact h'
  | cons _ ih => exact .cons (ih h')

/-- What every read preserves is preserved by reads in a row. -/
theorem Leads.induction {P : Scanner → Prop} (hP : ∀ s : Scanner, P s → P s.read.after)
    (h : Leads s rs s') (hs : P s) : P s' := by
  induction h with
  | nil => exact hs
  | cons _ ih => exact ih (hP _ hs)

/-- One of some reads in a row, with those before it and those behind it. -/
theorem Leads.exists_of_mem (h : Leads s rs s') {r : Reading} (hr : r ∈ rs) :
    ∃ mid before behind, Leads s before mid ∧ r = mid.read ∧ Leads mid.read.after behind s' := by
  induction h with
  | nil => cases hr
  | @cons s s' rs hrest ih =>
    rcases List.mem_cons.mp hr with rfl | hr
    · exact ⟨s, [], rs, .nil, rfl, hrest⟩
    · obtain ⟨mid, before, behind, hbefore, hmid, hbehind⟩ := ih hr
      exact ⟨mid, s.read :: before, behind, .cons hbefore, hmid, hbehind⟩

/-- A collection is at its end behind a read that gives no token. -/
theorem after_collect_of_last (hf : s.failed = false) (ha : ∀ t, s.read.answer ≠ .token t) :
    s.collect.after = s.read.after := by
  have hn := next_of_not_failed hf
  cases h : s.read.answer with
  | token t => exact absurd h (ha t)
  | ended => rw [collect_of_ended (by rw [hn, h]), hn]
  | error e => rw [collect_of_error (by rw [hn, h]), hn]

theorem after_collect_of_token {t : Token} (hf : s.failed = false) (ha : s.read.answer = .token t) :
    s.collect.after = s.read.after.collect.after := by
  have hn := next_of_not_failed hf
  rw [collect_of_token (by rw [hn, ha]), hn]

/-- Who collects the tokens reads up to the first answer that is none. -/
theorem leads_collect (hf : s.failed = false) : Leads s s.readings s.collect.after := by
  obtain ⟨scan, hscan⟩ := exists_yields s
  induction hscan with
  | ended ha =>
    rw [readings_of_ended ha, after_collect_of_last hf (by simp [ha])]
    exact .cons .nil
  | error ha =>
    rw [readings_of_error ha, after_collect_of_last hf (by simp [ha])]
    exact .cons .nil
  | token ha _ ih =>
    rw [readings_of_token ha, after_collect_of_token hf ha]
    exact .cons (ih (failed_of_token ha hf))

/-- Where a read has failed, nothing is given, and the scanner is left as it is. -/
theorem next_of_failed (hf : s.failed = true) : s.next = ⟨.ended, [], s⟩ := by
  rw [next, if_pos hf]

theorem collect_of_failed (hf : s.failed = true) : s.collect = ⟨.ok [], [], s⟩ := by
  have hn := next_of_failed hf
  rw [collect_of_ended (congrArg Reading.answer hn), hn]

end Scanner

namespace Session

open Scanner

/-- The reads that a request comes to. Who asks for the next token or for all of them does not read
where a read has failed. -/
def readsOf (s : Scanner) : Request → List Reading
  | .read => [s.read]
  | .next => if s.failed then [] else [s.read]
  | .collect => if s.failed then [] else s.readings
  | .state => []

/-- The reads that a session comes to. -/
def readsIn (s : Scanner) : List Request → List Reading
  | [] => []
  | request :: requests => readsOf s request ++ readsIn (respond s request).2 requests

theorem leads_respond (s : Scanner) (request : Request) :
    Leads s (readsOf s request) (respond s request).2 := by
  have hread : Leads s [s.read] s.read.after := .cons .nil
  cases request with
  | read => exact hread
  | next =>
    cases hf : s.failed with
    | true => simpa [readsOf, respond, hf, next_of_failed hf] using Leads.nil
    | false => simpa [readsOf, respond, hf, next_of_not_failed hf] using hread
  | collect =>
    cases hf : s.failed with
    | true => simpa [readsOf, respond, hf, collect_of_failed hf] using Leads.nil
    | false => simpa [readsOf, respond, hf] using leads_collect hf
  | state => exact .nil

theorem leads_leave (s : Scanner) (requests : List Request) :
    Leads s (readsIn s requests) (leave s requests) := by
  induction requests generalizing s with
  | nil => exact .nil
  | cons request requests ih => exact (leads_respond s request).append (ih _)

end Session

/-! ## The end of the input -/

open Session Scanner

/-- A read of an input finds the end of it: where a token was wanted, in a parenthesized string, or
in a string of another form, which has no closing delimiter then. -/
def Reading.FindsEnd (input : Input) (r : Reading) : Prop :=
  (stepOfReading r).SeesEnd ∨
    ∃ t form, r.answer = .token t ∧ t.kind = .string form ∧
      ¬ Lexeme.SelfDelimiting t ((stepOfReading r).lexeme input.bytes)

/-- A string that is open behind its last character is closed by the end of the input. -/
theorem Lexeme.Open.next_eq_none {l : Text} {next : Option Char} {t : Token} {form : StringForm}
    (h : Open l next t) (hk : t.kind = .string form) : next = none := by
  cases h with
  | run =>
    rcases runKind_cases l with hrun | ⟨numeral, hrun⟩ <;>
    · rw [hrun] at hk
      cases hk
  | literalName => cases hk
  | immediateName => cases hk
  | strayGreater => cases hk
  | hex => rfl
  | base85 => rfl

namespace Scanner

variable {s : Scanner} {input : Input}

/-- Where no item is left, a read finds the end, and the scanner stays where it is. -/
theorem read_of_nil (h : s.cursor.items = []) :
    stepOfReading s.read = ⟨.one .ended, [.ended s.location], s.location, s.location⟩ ∧
      s.read.after.cursor.items = [] := by
  have hg : Gap.machine.trace .space s.cursor.items = ⟨.done (), [], []⟩ := by
    rw [h]
    rfl
  have hl : Lexeme.machine.trace .fresh [] = ⟨.rejected .lexeme, [], []⟩ := rfl
  obtain ⟨c, hr, hi, hc⟩ := read_of_traces hg hl
  have hlocation : c.location = s.location := hc
  rw [hr]
  refine ⟨?_, hi⟩
  rw [← hlocation]
  rfl

/-- Every read of a session is that of a scanner somewhere in the input. -/
theorem exists_covers_of_mem {requests : List Request} {r : Reading}
    (hr : r ∈ readsIn (.start input) requests) : ∃ s, Covers input s ∧ r = s.read := by
  obtain ⟨mid, before, -, hbefore, hmid, -⟩ := (leads_leave (.start input) requests).exists_of_mem hr
  exact ⟨mid, hbefore.induction (fun _ => Covers.read) (covers_start input), hmid⟩

/-- What the step of a read shows of the input is the lexeme of the piece that is read. -/
theorem ReadsPiece.lexeme {p : Piece} {left : List Item} (h : s.ReadsPiece p left)
    (hc : Covers input s) : (stepOfReading s.read).lexeme input.bytes = Byte.text p.lexeme := by
  obtain ⟨front, hbytes, hlength⟩ := hc
  rw [h.items, Item.bytes_ofBytes_append] at hbytes
  have hoffset : ∀ bytes : List Byte,
      (s.location.advanceAll bytes).offset = (front ++ bytes).length := by
    intro bytes
    rw [Location.offset_advanceAll, List.length_append, hlength]
  have hend : (stepOfReading s.read).location.offset = (front ++ p.bytes).length :=
    (congrArg Location.offset h.location).trans (hoffset p.bytes)
  have hstart : (stepOfReading s.read).tokenStart.offset = (front ++ p.gap).length :=
    (congrArg Location.offset h.tokenStart).trans (hoffset p.gap)
  rw [Step.lexeme, hend, hstart, hbytes, ← List.append_assoc, List.take_left, Piece.bytes,
    ← List.append_assoc, List.drop_left]

/-- A read that has found the end leaves nothing. -/
theorem items_of_findsEnd (hc : Covers input s) (h : s.read.FindsEnd input) :
    s.read.after.cursor.items = [] := by
  rcases h with hsees | ⟨t, form, ha, hk, hopen⟩
  · exact items_of_seesEnd hsees
  · obtain ⟨p, rest, left, hp, hreads, hside⟩ := exists_piece_of_read ha
    obtain rfl := Answer.token.inj (hreads.answer.symm.trans ha)
    rw [hreads.lexeme hc] at hopen
    have hclosed : ¬ Lexeme.Closed (Byte.text p.lexeme) p.token := fun h => hopen h.selfDelimiting
    have hbegins := hside.resolve_left hclosed
    rw [(hp.spells.resolve_left hclosed).next_eq_none hk] at hbegins
    rw [hreads.after]
    rcases left with _ | ⟨item, left⟩
    · rfl
    · cases item <;> cases hbegins

/-- **Where the end has been found, it is found again**, at the place where it was. -/
theorem leave_of_findsEnd {requests : List Request} {r : Reading}
    (hr : r ∈ readsIn (.start input) requests) (h : r.FindsEnd input) :
    (leave (.start input) requests).cursor.items = [] ∧
      (leave (.start input) requests).location = r.after.location := by
  obtain ⟨mid, before, behind, hbefore, rfl, hbehind⟩ :=
    (leads_leave (.start input) requests).exists_of_mem hr
  have hc : Covers input mid := hbefore.induction (fun _ => Covers.read) (covers_start input)
  have hi := items_of_findsEnd hc h
  refine hbehind.induction (P := fun s => s.cursor.items = [] ∧
    s.location = mid.read.after.location) ?_ ⟨hi, rfl⟩
  rintro s ⟨hs, hl⟩
  obtain ⟨hstep, hafter⟩ := read_of_nil hs
  exact ⟨hafter, (congrArg Step.location hstep).trans hl⟩

end Scanner

/-! ## Errors -/

/-- A step that answers with an error. -/
def Step.Fails (s : Step) : Prop :=
  ∃ e, s.response = .one (.error e) ∨ s.response = .all (.error e)

/-- Behind all tokens, a scanner has failed if an error was the end of them. -/
theorem Scanner.failed_collect {s : Scanner} {scan : Scan} (h : s.Yields scan)
    (hf : s.failed = false) : s.collect.after.failed = scan.error.isSome := by
  induction h with
  | ended ha =>
    rw [after_collect_of_last hf (by simp [ha]), failed_read, hf, ha]
    rfl
  | error ha =>
    rw [after_collect_of_last hf (by simp [ha]), failed_read, ha]
    exact Bool.or_true _
  | token ha _ ih =>
    rw [after_collect_of_token hf ha, ih (failed_of_token ha hf)]
    rfl

namespace Session

theorem fails_one {a : Answer} {events : List Event} {s : Scanner} :
    (stepOf (.one a) events s).Fails ↔ a.isError = true := by
  cases a <;> simp [Step.Fails, stepOf, Answer.isError]

/-- A scanner has failed behind a request if it had before, or if the request is answered with an
error. -/
theorem failed_respond (s : Scanner) (request : Request) :
    (respond s request).2.failed = true ↔
      s.failed = true ∨ (respond s request).1.Fails := by
  cases hf : s.failed with
  | true =>
    have hkeep : (respond s request).2.failed = true :=
      (leads_respond s request).induction (P := fun s => s.failed = true)
        (fun s hs => by rw [failed_read, hs, Bool.true_or]) hf
    exact iff_of_true hkeep (.inl rfl)
  | false =>
    have hread : s.read.after.failed = true ↔ false = true ∨ (stepOfReading s.read).Fails := by
      rw [failed_read, hf, stepOfReading, fails_one]
      simp
    cases request with
    | read => exact hread
    | next => simpa only [respond, next_of_not_failed hf] using hread
    | collect =>
      obtain ⟨scan, hscan⟩ := exists_yields s
      have hresult := hscan.collect hf
      simp only [respond, failed_collect hscan hf, Step.Fails, stepOf, hresult]
      obtain ⟨found, error⟩ := scan
      cases error <;> simp [Scan.result]
    | state => simp [respond, Step.Fails, stepOf, hf]

theorem run_cons (s : Scanner) (request : Request) (requests : List Request) :
    run s (request :: requests) =
      (respond s request).1 :: run (respond s request).2 requests := rfl

/-- A scanner has failed behind a session if it had before, or if something was answered with an
error. -/
theorem failed_leave (s : Scanner) (requests : List Request) :
    (leave s requests).failed = true ↔
      s.failed = true ∨ ∃ step ∈ run s requests, step.Fails := by
  induction requests generalizing s with
  | nil => simp [leave, run]
  | cons request requests ih =>
    have hleave : leave s (request :: requests) = leave (respond s request).2 requests := rfl
    rw [hleave, ih, failed_respond, run_cons]
    simp only [List.exists_mem_cons_iff, or_assoc]

/-- Requests of which one may stand for the other as long as no read has failed. -/
def Exchangeable (request request' : Request) : Prop :=
  request = request' ∨ request ∈ [.read, .next] ∧ request' ∈ [.read, .next]

theorem respond_eq_of_exchangeable {s : Scanner} (hf : s.failed = false)
    {request request' : Request} (h : Exchangeable request request') :
    respond s request = respond s request' := by
  have hnext : respond s .next = respond s .read := by
    simp only [respond, next_of_not_failed hf]
  rcases h with rfl | ⟨hr, hr'⟩
  · rfl
  · simp only [List.mem_cons, List.not_mem_nil, or_false] at hr hr'
    rcases hr with rfl | rfl <;> rcases hr' with rfl | rfl
    · rfl
    · exact hnext.symm
    · exact hnext
    · rfl

/-- Up to the first error it makes no difference whether the next token is asked for or read. -/
theorem run_eq_of_exchangeable {s : Scanner} (hf : s.failed = false)
    {requests requests' : List Request} (h : List.Forall₂ Exchangeable requests requests')
    (hok : ∀ step ∈ run s requests.dropLast, ¬ step.Fails) (others : List Request) :
    run s (requests ++ others) = run s (requests' ++ others) := by
  induction h generalizing s with
  | nil => rfl
  | @cons request request' requests requests' hr hrest ih =>
    have hsame := respond_eq_of_exchangeable hf hr
    rw [List.cons_append, List.cons_append, run_cons, run_cons, ← hsame]
    refine congrArg _ ?_
    cases hrest with
    | nil => rfl
    | cons hr₂ hrest₂ =>
      rw [List.dropLast_cons_cons, run_cons] at hok
      obtain ⟨hfirst, hothers⟩ := List.forall_mem_cons.mp hok
      refine ih ?_ hothers
      rw [← Bool.not_eq_true, failed_respond, hf]
      simpa using hfirst

end Session

/-! ## The main statement -/

/-- **What is final.** Where the end of the input has been found, every read finds it there again.
Where something has been answered with an error, the next token is none and all tokens are none,
and to ask for them changes nothing. Up to the first error, to ask for the next token is to read. -/
theorem requests_final (input : Input) :
    (∀ requests, ∀ r ∈ readsIn (.start input) requests, r.FindsEnd input →
      (leave (.start input) requests).location = r.after.location ∧
        (respond (leave (.start input) requests) .read).1 =
          ⟨.one .ended, [.ended r.after.location], r.after.location, r.after.location⟩) ∧
    (∀ requests, (∃ step ∈ run (.start input) requests, step.Fails) →
      let s := leave (.start input) requests
      respond s .next = (⟨.one .ended, [], s.tokenStart, s.location⟩, s) ∧
        respond s .collect = (⟨.all (.ok []), [], s.tokenStart, s.location⟩, s)) ∧
    ∀ requests requests' others, List.Forall₂ Exchangeable requests requests' →
      (∀ step ∈ run (.start input) requests.dropLast, ¬ step.Fails) →
      run (.start input) (requests ++ others) = run (.start input) (requests' ++ others) := by
  refine ⟨?_, ?_, ?_⟩
  · intro requests r hr hend
    obtain ⟨hi, hl⟩ := leave_of_findsEnd hr hend
    refine ⟨hl, ?_⟩
    rw [← hl]
    exact (read_of_nil hi).1
  · intro requests herror
    have hf : (leave (.start input) requests).failed = true :=
      (failed_leave _ requests).mpr (.inr herror)
    refine ⟨?_, ?_⟩
    · rw [respond, next_of_failed hf]
      rfl
    · rw [respond, collect_of_failed hf]
      rfl
  · intro requests requests' others h hok
    exact run_eq_of_exchangeable rfl h hok others

/-- A source that fails at first, and ends in a string. Behind its end it would still fail once more
and deliver a name. -/
def endlessHex : Input :=
  ⟨[.failure ⟨.timedOut, ""⟩, .data [0x3c, 0x34], .data [], .failure ⟨.brokenPipe, ""⟩,
    .data [0x61]]⟩

theorem requests_endlessHex :
    let s := leave (.start endlessHex) [.next, .read]
    (respond s .read).1 = ⟨.one .ended, [.ended ⟨2, 1, 3⟩], ⟨2, 1, 3⟩, ⟨2, 1, 3⟩⟩ ∧
      respond s .next = (⟨.one .ended, [], ⟨0, 1, 1⟩, ⟨2, 1, 3⟩⟩, s) ∧
      run (.start endlessHex) [.next, .read, .next] =
        run (.start endlessHex) [.read, .read, .next] := by
  obtain ⟨hend, herror, hsame⟩ := requests_final endlessHex
  -- the second read is one of a string, of which nothing but the end of the input is the end
  have hclosed : (Scanner.start endlessHex).read.after.read.FindsEnd endlessHex :=
    .inr ⟨⟨.string .hex, ['4', '0']⟩, .hex, by decide +kernel, rfl, by
      have hlast : ((stepOfReading (Scanner.start endlessHex).read.after.read).lexeme
        endlessHex.bytes).getLast? ≠ some '>' := by decide +kernel
      exact hlast⟩
  have hplace : (Scanner.start endlessHex).read.after.read.after.location = ⟨2, 1, 3⟩ := by
    decide +kernel
  have hmem : (Scanner.start endlessHex).read.after.read ∈
    readsIn (.start endlessHex) [.next, .read] := List.mem_cons_of_mem _ (List.mem_cons_self ..)
  have hreads := hend [.next, .read] _ hmem hclosed
  have hfails : ∃ step ∈ run (.start endlessHex) [.next, .read], step.Fails :=
    ⟨_, List.mem_cons_self .., .read ⟨.timedOut, ""⟩, .inl (congrArg Response.one (by
      decide +kernel))⟩
  rw [hplace] at hreads
  have hstart : (leave (.start endlessHex) [.next, .read]).tokenStart = ⟨0, 1, 1⟩ := by
    decide +kernel
  have hnext := (herror _ hfails).1
  rw [hstart, hreads.1] at hnext
  refine ⟨hreads.2, hnext, ?_⟩
  exact hsame [.next] [.read] [.read, .next] (.cons (.inr ⟨by simp, by simp⟩) .nil) (by simp [run])

end PageTokens
