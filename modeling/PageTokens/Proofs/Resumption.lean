import PageTokens.Proofs.Lookahead
import PageTokens.Proofs.Places

/-!
# Going on in the middle of an input

Between reads a scanner remembers nothing but where it stands, whatever the last read came to. To
say so, a scanner in the middle of a source is compared with a fresh one on what is left of the
source: the fresh one counts its places from there, so its steps are those of the other one with
every place shifted (`Location.shift`). A counter may have come to its limit in the one and not yet
in the other; so the shifted places are those of the other one as they are counted, and just those
if the source is shorter than the limit.

What is left of a source shows from outside. Every byte that was taken is counted by the location,
every failure that was met was reported, and nothing else leaves the items
(`Session.items_leave`). The main statement is `reads_resume`.

The relation between the two scanners is `Scanner.Resumes`. It allows a gap before the one in the
middle that the fresh one does not have, since a gap and one more gap are read as one gap.
-/

namespace PageTokens

/-! ## Places counted from another place -/

namespace Location

/-- The place in an input of a place in a part of it, if the part begins at `base`. Only the first
line of the part stands on a line with something before it. -/
def shift (base l : Location) : Location where
  offset := base.offset + l.offset
  line := l.line + (base.line - 1)
  column := if l.line = 1 then l.column + (base.column - 1) else l.column

/-- A location that counting leads to. -/
structure Proper (l : Location) : Prop where
  /-- the first line is 1 -/
  line_pos : 1 ≤ l.line
  /-- the first column is 1 -/
  column_pos : 1 ≤ l.column
  /-- the line is within the limit -/
  line_le_limit : l.line ≤ limit
  /-- the column is within the limit -/
  column_le_limit : l.column ≤ limit
  /-- there is no line without a byte before it, but for the first -/
  line_le : l.line ≤ l.offset + 1
  /-- nor a column -/
  column_le : l.column ≤ l.offset + 1

theorem one_le_limit : 1 ≤ limit := by decide

theorem proper_start : Proper start :=
  ⟨Nat.le_refl 1, Nat.le_refl 1, one_le_limit, one_le_limit, Nat.le_refl 1, Nat.le_refl 1⟩

theorem Proper.advance {l : Location} (h : l.Proper) (b : Byte) : (l.advance b).Proper := by
  obtain ⟨hline, -, hlimit, -, hle, hle'⟩ := h
  unfold Location.advance
  split
  · exact ⟨Nat.le_min.mpr ⟨Nat.le_add_left 1 _, one_le_limit⟩, Nat.le_refl 1, Nat.min_le_right ..,
      one_le_limit, Nat.le_trans (Nat.min_le_left ..) (Nat.succ_le_succ hle), Nat.le_add_left 1 _⟩
  · exact ⟨hline, Nat.le_min.mpr ⟨Nat.le_add_left 1 _, one_le_limit⟩, hlimit, Nat.min_le_right ..,
      Nat.le_succ_of_le hle, Nat.le_trans (Nat.min_le_left ..) (Nat.succ_le_succ hle')⟩

theorem Proper.advanceAll {l : Location} (h : l.Proper) (bytes : List Byte) :
    (l.advanceAll bytes).Proper := by
  induction bytes generalizing l with
  | nil => exact h
  | cons b bytes ih => exact ih (h.advance b)

theorem Proper.ne_unset {l : Location} (h : l.Proper) : l ≠ unset := by
  rintro rfl
  exact absurd h.line_pos (by decide)

theorem Proper.counted {l : Location} (h : l.Proper) : l.counted = l :=
  counted_of_le h.line_le_limit h.column_le_limit

/-- A part of an input begins where it begins. -/
theorem shift_start {base : Location} (h : base.Proper) : base.shift start = base := by
  obtain ⟨hline, hcolumn, -⟩ := h
  obtain ⟨offset, line, column⟩ := base
  simp only [shift, start, if_true, mk.injEq] at hline hcolumn ⊢
  omega

/-- A counter that stops in a part stops in the whole as well, so shifting and counting on can
change places. -/
theorem counted_shift_advance {l : Location} (h : l.Proper) (base : Location) (b : Byte) :
    (base.shift (l.advance b)).counted = (base.shift l).counted.advance b := by
  have hline := h.line_pos
  have htwo : 2 ≤ limit := by decide
  unfold advance
  split
  · -- a new line is not the first one any more
    have hne : min (l.line + 1) limit ≠ 1 := by omega
    simp only [shift, counted, if_neg hne, mk.injEq]
    omega
  · simp only [shift, counted, mk.injEq]
    refine ⟨by omega, trivial, ?_⟩
    split <;> omega

/-- Going on from a shifted place comes to the shifted place. -/
theorem counted_shift_advanceAll {l : Location} (h : l.Proper) (base : Location)
    (bytes : List Byte) :
    (base.shift (l.advanceAll bytes)).counted = (base.shift l).counted.advanceAll bytes := by
  induction bytes generalizing l with
  | nil => rfl
  | cons b bytes ih =>
    have hb := ih (h.advance b)
    rw [counted_shift_advance h] at hb
    exact hb

/-! ### Places in step -/

/-- As some bytes are passed, the places from `l'` on are those from `l` on, told in another way. -/
def Tracks (place : Location → Location) (l l' : Location) (bytes : List Byte) : Prop :=
  ∀ front, front <+: bytes → l'.advanceAll front = place (l.advanceAll front)

section Tracks

variable {place : Location → Location} {l l' : Location} {xs ys : List Byte}

theorem Tracks.here (h : Tracks place l l' xs) : l' = place l := h [] List.nil_prefix

theorem Tracks.after (h : Tracks place l l' (xs ++ ys)) :
    l'.advanceAll xs = place (l.advanceAll xs) := h xs (List.prefix_append xs ys)

theorem Tracks.behind (h : Tracks place l l' (xs ++ ys)) :
    Tracks place (l.advanceAll xs) (l'.advanceAll xs) ys := by
  intro front hfront
  rw [← advanceAll_append, ← advanceAll_append]
  exact h (xs ++ front) ((List.prefix_append_right_inj xs).mpr hfront)

/-- The places of an input are those of a part of it, shifted and counted. -/
theorem tracks_counted {base : Location} (h : base.Proper) (bytes : List Byte) :
    Tracks (fun l => (base.shift l).counted) start base bytes := by
  intro front _
  simp only [counted_shift_advanceAll proper_start, shift_start h, h.counted]

/-- If the input is shorter than the limit, they are those of the part, shifted. -/
theorem tracks_shift {base : Location} (h : base.Proper) {bytes : List Byte}
    (hlt : base.offset + bytes.length < limit) : Tracks base.shift start base bytes := by
  intro front hfront
  have hl := proper_start.advanceAll front
  have hline := h.line_le
  have hcolumn := h.column_le
  have hline' := hl.line_le
  have hcolumn' := hl.column_le
  have hoffset : (start.advanceAll front).offset ≤ bytes.length := by
    rw [offset_advanceAll]
    exact Nat.le_trans (Nat.le_of_eq (Nat.zero_add _)) hfront.length_le
  refine (tracks_counted h bytes front hfront).trans (counted_of_le ?_ ?_)
  · simp only [shift]
    omega
  · simp only [shift]
    split <;> omega

end Tracks

end Location

/-! ## Steps counted from another place -/

section Moved

variable (place : Location → Location)

/-- An error with its place told in another way. -/
def ScanError.moved : ScanError → ScanError
  | .unterminated start => .unterminated (place start)
  | .read f => .read f

/-- An answer with its place told in another way, if it has one. -/
def Answer.moved : Answer → Answer
  | .token t => .token t
  | .ended => .ended
  | .error e => .error (e.moved place)

/-- A response with its place told in another way, if it has one. -/
def Response.moved : Response → Response
  | .one a => .one (a.moved place)
  | .all tokens => .all (tokens.mapError (·.moved place))
  | .nothing => .nothing

/-- An event with its place told in another way. -/
def Event.moved : Event → Event
  | .remarked r start => .remarked r (place start)
  | .scanned t start => .scanned t (place start)
  | .ended location => .ended (place location)
  | .failed e => .failed (e.moved place)

/-- A step with all its places told in another way. -/
def Step.moved (s : Step) : Step where
  response := s.response.moved place
  events := s.events.map (·.moved place)
  tokenStart := place s.tokenStart
  location := place s.location

/-- A step as it is where other steps came before: as long as no token has been begun since, the
token begun last is still the one from before. -/
def Step.resumed (earlier : Location) (s : Step) : Step :=
  { s.moved place with
    tokenStart := if s.tokenStart = .unset then earlier else place s.tokenStart }

theorem Step.resumed_of_proper {s : Step} (h : s.tokenStart.Proper) (earlier : Location) :
    s.resumed place earlier = s.moved place := by
  simp [resumed, h.ne_unset, moved]

end Moved

/-! ## What is left of a source -/

/-- The failure that an answer reports. -/
def Answer.failure? : Answer → Option Failure
  | .error e => e.failure?
  | .token _ | .ended => none

/-- The failure that a step reports. -/
def Step.failure? (s : Step) : Option Failure :=
  match s.response with
  | .one a => a.failure?
  | .all _ | .nothing => none

/-- A step that has come to the end of the input where a token was wanted, or in a string. -/
def Step.SeesEnd (s : Step) : Prop :=
  s.response = .one .ended ∨ ∃ start, s.response = .one (.error (.unterminated start))

/-- The failure at which a run ends, as an item. -/
def Ending.items {τ ε : Type} : Ending τ ε → List Item
  | .failed f => [.failure f]
  | .done _ | .rejected _ => []

namespace Machine

variable {σ τ ε : Type}

/-- What a run does not leave it has taken, but for the failure that it reports. -/
theorem items_eq_trace (m : Machine σ τ ε) (s : σ) (items : List Item) :
    items = Item.ofBytes (m.trace s items).taken ++
      ((m.trace s items).ending.items ++ (m.trace s items).rest) := by
  induction items generalizing s with
  | nil =>
    rw [trace]
    cases m.finish s <;> rfl
  | cons item items ih =>
    rcases item with b | f
    · rw [trace]
      cases m.step s b.char with
      | more next => exact congrArg (.byte b :: ·) (ih next)
      | last result => rfl
      | before result => rfl
    · rfl

/-- The bytes of the items are those that a run takes and those that it leaves. -/
theorem bytes_of_trace {m : Machine σ τ ε} {s : σ} {items rest : List Item} {e : Ending τ ε}
    {taken : List Byte} (h : m.trace s items = ⟨e, taken, rest⟩) :
    Item.bytes items = taken ++ Item.bytes rest := by
  have hitems := m.items_eq_trace s items
  rw [h] at hitems
  rw [hitems, Item.bytes_ofBytes_append]
  cases e <;> rfl

/-- The end of the input is rejected where nothing is left. -/
theorem rest_of_rejected {m : Machine σ τ ε} {s : σ} {items : List Item} {reason : ε}
    (h : (m.trace s items).ending = .rejected reason) : (m.trace s items).rest = [] := by
  induction items generalizing s with
  | nil => rfl
  | cons item items ih =>
    rcases item with b | f
    · rw [trace] at h ⊢
      cases hs : m.step s b.char with
      | more next =>
        rw [hs] at h
        exact ih h
      | last result => simp [hs] at h
      | before result => simp [hs] at h
    · cases h

end Machine

/-- The failure that an answer reports, as an item. -/
def Answer.items (a : Answer) : List Item := (a.failure?.map .failure).toList

namespace Scanner

theorem cursor_conclude (e : Ending Lexeme Lexeme.Missing) (c : Cursor) (start : Location)
    (failed : Bool) : (conclude e c start failed).after.cursor = c := by
  rcases e with l | ⟨_ | _⟩ | f <;> rfl

theorem tokenStart_conclude (e : Ending Lexeme Lexeme.Missing) (c : Cursor) (start : Location)
    (failed : Bool) : (conclude e c start failed).after.tokenStart = start := by
  rcases e with l | ⟨_ | _⟩ | f <;> rfl

/-- A read reports the failure at which the lexeme ended. -/
theorem items_conclude (e : Ending Lexeme Lexeme.Missing) (c : Cursor) (start : Location)
    (failed : Bool) : (conclude e c start failed).answer.items = e.items := by
  rcases e with l | ⟨_ | _⟩ | f <;> rfl

/-- What a read does not leave it has moved over, but for the failure that it reports. -/
theorem items_read (s : Scanner) :
    ∃ bytes, s.cursor.items =
        Item.ofBytes bytes ++ (s.read.answer.items ++ s.read.after.cursor.items) ∧
      s.read.after.location = s.location.advanceAll bytes := by
  rcases gap_trace_cases s.cursor.items with ⟨gap, mid, hg⟩ | ⟨f, gap, rest, hg⟩
  · rcases hl : Lexeme.machine.trace .fresh mid with ⟨e, lexeme, rest⟩
    obtain ⟨c, hr, rfl, hc⟩ := read_of_traces hg hl
    have hgap : s.cursor.items = Item.ofBytes gap ++ mid := by
      have h := Gap.machine.items_eq_trace .space s.cursor.items
      rw [hg] at h
      exact h
    have hlexeme : mid = Item.ofBytes lexeme ++ (e.items ++ c.items) := by
      have h := Lexeme.machine.items_eq_trace .fresh mid
      rw [hl] at h
      exact h
    refine ⟨gap ++ lexeme, ?_, ?_⟩
    · rw [hr, items_conclude, cursor_conclude, Item.ofBytes_append, List.append_assoc, ← hlexeme,
        hgap]
    · rw [hr, Scanner.location, cursor_conclude, hc]
  · obtain ⟨c, hr, rfl, hc⟩ := read_of_gap_failure hg
    have hgap := Gap.machine.items_eq_trace .space s.cursor.items
    rw [hg] at hgap
    rw [hr]
    exact ⟨gap, hgap, hc⟩

/-- A read that has come to the end of the input leaves nothing. -/
theorem items_of_seesEnd {s : Scanner} (h : (Session.stepOfReading s.read).SeesEnd) :
    s.read.after.cursor.items = [] := by
  rcases gap_trace_cases s.cursor.items with ⟨gap, mid, hg⟩ | ⟨f, gap, rest, hg⟩
  · rcases hl : Lexeme.machine.trace .fresh mid with ⟨e, lexeme, rest⟩
    obtain ⟨c, hr, rfl, -⟩ := read_of_traces hg hl
    rw [hr] at h ⊢
    rw [cursor_conclude]
    rcases e with l | reason | f
    · rcases h with h | ⟨start, h⟩ <;> cases h
    · have hrest := Machine.rest_of_rejected (congrArg Machine.Trace.ending hl)
      rw [hl] at hrest
      exact hrest
    · rcases h with h | ⟨start, h⟩ <;> cases h
  · obtain ⟨c, hr, -⟩ := read_of_gap_failure hg
    rw [hr] at h
    rcases h with h | ⟨start, h⟩ <;> cases h

end Scanner

namespace Session

open Scanner

/-- The steps of a number of reads, from wherever a scanner stands. -/
def readsFrom (s : Scanner) (n : Nat) : List Step := run s (.replicate n .read)

/-- The scanner behind a number of reads. -/
def behind (s : Scanner) (n : Nat) : Scanner := leave s (.replicate n .read)

theorem readsFrom_succ (s : Scanner) (n : Nat) :
    readsFrom s (n + 1) = stepOfReading s.read :: readsFrom s.read.after n := rfl

theorem behind_succ (s : Scanner) (n : Nat) : behind s (n + 1) = behind s.read.after n := rfl

theorem readsFrom_add (s : Scanner) (n k : Nat) :
    readsFrom s (n + k) = readsFrom s n ++ readsFrom (behind s n) k := by
  rw [readsFrom, ← List.replicate_append_replicate, run_append]
  rfl

/-- What a number of reads leaves is what they have not moved over and not reported. -/
theorem items_behind (s : Scanner) (n : Nat) :
    ∃ taken, s.cursor.items = taken ++ (behind s n).cursor.items ∧
      (behind s n).location.offset + ((readsFrom s n).filterMap Step.failure?).length =
        s.location.offset + taken.length := by
  induction n generalizing s with
  | zero => exact ⟨[], rfl, rfl⟩
  | succ n ih =>
    obtain ⟨bytes, hi, hl⟩ := s.items_read
    obtain ⟨taken, hi', hl'⟩ := ih s.read.after
    refine ⟨Item.ofBytes bytes ++ (s.read.answer.items ++ taken), ?_, ?_⟩
    · rw [hi, hi', behind_succ, List.append_assoc, List.append_assoc]
    · have hfailure : (stepOfReading s.read).failure? = s.read.answer.failure? := rfl
      rw [hl, Location.offset_advanceAll] at hl'
      rw [behind_succ, readsFrom_succ, List.filterMap_cons, hfailure]
      simp only [Item.ofBytes, Answer.items, List.length_append, List.length_map]
      cases s.read.answer.failure? with
      | none =>
        simp only [Option.map_none, Option.toList_none, List.length_nil]
        omega
      | some f =>
        simp only [Option.map_some, Option.toList_some, List.length_cons, List.length_nil]
        omega

/-- A scanner that has moved over bytes stands where they lead. -/
theorem proper_behind {s : Scanner} (h : s.location.Proper) (n : Nat) :
    (behind s n).location.Proper := by
  induction n generalizing s with
  | zero => exact h
  | succ n ih =>
    obtain ⟨bytes, -, hl⟩ := s.items_read
    have hp := h.advanceAll bytes
    rw [← hl] at hp
    exact ih hp

/-- Where the end of the input has been seen, nothing is left. -/
theorem items_of_mem_seesEnd {s : Scanner} {n : Nat} {step : Step} (hmem : step ∈ readsFrom s n)
    (hend : step.SeesEnd) : (behind s n).cursor.items = [] := by
  induction n generalizing s with
  | zero => cases hmem
  | succ n ih =>
    rw [readsFrom_succ] at hmem
    rcases List.mem_cons.mp hmem with rfl | hmem
    · obtain ⟨taken, hi, -⟩ := items_behind s.read.after n
      rw [items_of_seesEnd hend] at hi
      exact (List.append_eq_nil_iff.mp hi.symm).2
    · exact ih hmem

end Session

/-! ## Going on -/

namespace Scanner

open Session

/-- A scanner goes on with what stands before a fresh one: `place` says where it is by where the
fresh one is, and `earlier` is the token before the fresh one's beginning. There may be a gap between
the two. -/
structure Resumes (place : Location → Location) (earlier : Location) (fresh s : Scanner) :
    Prop where
  /-- what stands before them, and the gap -/
  items : ∃ gap, Advance.feed Gap.step .space (Byte.text gap) = some .space ∧
    s.cursor.items = Item.ofBytes gap ++ fresh.cursor.items ∧
    Location.Tracks place fresh.location (s.location.advanceAll gap) (Item.bytes fresh.cursor.items)
  /-- the fresh one counts from one -/
  proper : fresh.location.Proper
  /-- where their latest tokens begin -/
  tokenStart : s.tokenStart =
    if fresh.tokenStart = .unset then earlier else place fresh.tokenStart

variable {place : Location → Location} {earlier : Location}

/-- A read that has begun a token, or come to the end, concludes with the same, its places told in
the other way. -/
theorem stepOfReading_conclude (e : Ending Lexeme Lexeme.Missing) {c c' : Cursor}
    {start : Location} (hl : c'.location = place c.location) (failed failed' : Bool) :
    stepOfReading (conclude e c' (place start) failed') =
      (stepOfReading (conclude e c start failed)).moved place := by
  rcases e with ⟨t, remark⟩ | ⟨_ | _⟩ | f
  · cases remark <;>
      simp [stepOfReading, stepOf, conclude, finding, Step.moved, Response.moved, Answer.moved,
        Event.moved, Scanner.location, hl]
  all_goals
    simp [stepOfReading, stepOf, conclude, failing, Step.moved, Response.moved, Answer.moved,
      Event.moved, ScanError.moved, Scanner.location, hl]

theorem resumes_conclude (e : Ending Lexeme Lexeme.Missing) {c c' : Cursor} {start : Location}
    (hi : c'.items = c.items) (hp : c.location.Proper)
    (hl : Location.Tracks place c.location c'.location (Item.bytes c.items)) (hs : start.Proper)
    (failed failed' : Bool) :
    stepOfReading (conclude e c' (place start) failed') =
        (stepOfReading (conclude e c start failed)).resumed place earlier ∧
      Resumes place earlier (conclude e c start failed).after
        (conclude e c' (place start) failed').after := by
  have hstart := tokenStart_conclude e c start failed
  refine ⟨?_, ⟨[], rfl, ?_, ?_⟩, ?_, ?_⟩
  · have hproper : (stepOfReading (conclude e c start failed)).tokenStart.Proper := by
      rw [← hstart] at hs
      exact hs
    rw [stepOfReading_conclude e hl.here, Step.resumed_of_proper place hproper]
  · rw [cursor_conclude, cursor_conclude]
    exact hi
  · rw [Scanner.location, Scanner.location, cursor_conclude, cursor_conclude]
    exact hl
  · rw [Scanner.location, cursor_conclude]
    exact hp
  · rw [tokenStart_conclude, hstart, if_neg hs.ne_unset]

/-- A read of a scanner that goes on is the fresh one's, its places told in the other way, and it
goes on behind it. -/
theorem Resumes.read {fresh s : Scanner} (h : Resumes place earlier fresh s) :
    stepOfReading s.read = (stepOfReading fresh.read).resumed place earlier ∧
      Resumes place earlier fresh.read.after s.read.after := by
  obtain ⟨⟨between, hfeed, hitems, hloc⟩, hp, hstart⟩ := h
  -- the gap between the two only makes the next one longer
  have htrace : Gap.machine.trace .space s.cursor.items =
      (Gap.machine.trace .space fresh.cursor.items).behind between := by
    rw [hitems]
    exact Machine.trace_of_feed hfeed _
  rcases gap_trace_cases fresh.cursor.items with ⟨gap, mid, hg⟩ | ⟨f, gap, rest, hg⟩
  · rcases hl : Lexeme.machine.trace .fresh mid with ⟨e, lexeme, rest⟩
    have hg' : Gap.machine.trace .space s.cursor.items = ⟨.done (), between ++ gap, mid⟩ := by
      rw [htrace, hg]
      rfl
    obtain ⟨c, hr, hi, hc⟩ := read_of_traces hg hl
    obtain ⟨c', hr', hi', hc'⟩ := read_of_traces hg' hl
    rw [Machine.bytes_of_trace hg, Machine.bytes_of_trace hl] at hloc
    have hbegin : s.location.advanceAll (between ++ gap) =
        place (fresh.location.advanceAll gap) := by
      rw [Location.advanceAll_append]
      exact hloc.after
    have hend : Location.Tracks place c.location c'.location (Item.bytes c.items) := by
      rw [← List.append_assoc] at hloc
      rw [hc, hc', hi, List.append_assoc, Location.advanceAll_append s.location]
      exact hloc.behind
    have hpc : c.location.Proper := by
      rw [hc]
      exact hp.advanceAll _
    rw [hr, hr', hbegin]
    exact resumes_conclude e (hi'.trans hi.symm) hpc hend (hp.advanceAll gap) _ _
  · have hg' : Gap.machine.trace .space s.cursor.items = ⟨.failed f, between ++ gap, rest⟩ := by
      rw [htrace, hg]
      rfl
    obtain ⟨c, hr, hi, hc⟩ := read_of_gap_failure hg
    obtain ⟨c', hr', hi', hc'⟩ := read_of_gap_failure hg'
    rw [Machine.bytes_of_trace hg] at hloc
    have hend : Location.Tracks place c.location c'.location (Item.bytes c.items) := by
      rw [hc, hc', hi, Location.advanceAll_append s.location]
      exact hloc.behind
    have hpc : c.location.Proper := by
      rw [hc]
      exact hp.advanceAll _
    rw [hr, hr']
    refine ⟨?_, ⟨[], rfl, hi'.trans hi.symm, hend⟩, hpc, hstart⟩
    -- no token is begun, so that of the earlier read stays
    have hstep : stepOfReading (failing (.read f) c' s.tokenStart) =
      ⟨.one (.error (.read f)), [.failed (.read f)], s.tokenStart, c'.location⟩ := rfl
    rw [hstep, hstart, hend.here]
    rfl

/-- So are any number of reads. -/
theorem Resumes.readsFrom {fresh s : Scanner} (h : Resumes place earlier fresh s) (n : Nat) :
    readsFrom s n = (readsFrom fresh n).map (·.resumed place earlier) := by
  induction n generalizing fresh s with
  | zero => rfl
  | succ n ih =>
    obtain ⟨hstep, hafter⟩ := h.read
    rw [readsFrom_succ, readsFrom_succ, List.map_cons, hstep, ih hafter]

/-- A scanner goes on with what it stands before. -/
theorem Resumes.of_items {rest : Input} {s : Scanner} (hi : s.cursor.items = rest.items)
    (h : Location.Tracks place .start s.location rest.bytes) :
    Resumes place s.tokenStart (start rest) s :=
  ⟨⟨[], rfl, hi, h⟩, Location.proper_start, rfl⟩

end Scanner

/-! ## Sources for what is left -/

namespace Item

/-- A read that comes to an item. -/
def read : Item → Read
  | .byte b => .data [b]
  | .failure f => .failure f

/-- Interrupted reads leave no trace among the items. -/
theorem kind_ne_interrupted {reads : List Read} {f : Failure} (h : .failure f ∈ ofReads reads) :
    f.kind ≠ .interrupted := by
  induction reads using ofReads.induct with
  | case1 => cases h
  | case2 => cases h
  | case3 b bytes reads ih =>
    rw [ofReads] at h
    rcases List.mem_append.mp h with hb | hr
    · obtain ⟨b', -, hb'⟩ := List.mem_map.mp (show _ ∈ ofBytes (b :: bytes) from hb)
      cases hb'
    · exact ih hr
  | case4 g reads hg ih =>
    rw [ofReads, if_pos hg] at h
    exact ih h
  | case5 g reads hg ih =>
    rw [ofReads, if_neg hg] at h
    rcases List.mem_cons.mp h with hf | hr
    · obtain rfl := Item.failure.inj hf
      exact hg
    · exact ih hr

theorem ofReads_map_read {items : List Item}
    (h : ∀ f, .failure f ∈ items → f.kind ≠ .interrupted) : ofReads (items.map read) = items := by
  induction items with
  | nil => rfl
  | cons item items ih =>
    have hitems := ih fun f hf => h f (List.mem_cons_of_mem _ hf)
    cases item with
    | byte b => simp [read, ofReads, hitems]
    | failure f => simp [read, ofReads, hitems, h f (List.mem_cons_self ..)]

end Item

/-- What is left of a source behind some of its items is a source. -/
theorem Input.exists_items_eq_drop (input : Input) (n : Nat) :
    ∃ rest : Input, rest.items = input.items.drop n := by
  refine ⟨⟨(input.items.drop n).map Item.read⟩, Item.ofReads_map_read ?_⟩
  intro f hf
  exact Item.kind_ne_interrupted (List.mem_of_mem_drop hf)

/-! ## Where a scanner stands -/

namespace Scanner

variable {s : Scanner} {input : Input}

/-- What stands before a scanner is what the input has behind the place of the scanner. -/
def Covers (input : Input) (s : Scanner) : Prop :=
  ∃ front, input.bytes = front ++ Item.bytes s.cursor.items ∧ front.length = s.location.offset

theorem covers_start (input : Input) : Covers input (start input) := ⟨[], rfl, rfl⟩

theorem Covers.read (h : Covers input s) : Covers input s.read.after := by
  obtain ⟨front, hbytes, hlength⟩ := h
  obtain ⟨bytes, hi, hl⟩ := s.items_read
  have hfailure : Item.bytes (s.read.answer.items ++ s.read.after.cursor.items) =
      Item.bytes s.read.after.cursor.items := by
    rw [Answer.items]
    cases s.read.answer.failure? <;> rfl
  refine ⟨front ++ bytes, ?_, ?_⟩
  · rw [hbytes, hi, Item.bytes_ofBytes_append, hfailure, List.append_assoc]
  · rw [hl, Location.offset_advanceAll, List.length_append, hlength]

theorem Covers.behind (h : Covers input s) (n : Nat) : Covers input (Session.behind s n) := by
  induction n generalizing s with
  | zero => exact h
  | succ n ih => exact ih h.read

end Scanner

/-! ## The main statement -/

namespace Session

open Scanner

/-- What a number of reads has left of a source, by what shows of them: one item is gone for each
byte that the location counts, and one for each failure that was reported. -/
def left (input : Input) (n : Nat) : List Item :=
  input.items.drop ((behind (.start input) n).location.offset +
    ((reads input n).filterMap Step.failure?).length)

/-- What is left stands before the scanner. -/
theorem left_eq_items (input : Input) (n : Nat) :
    left input n = (behind (.start input) n).cursor.items := by
  obtain ⟨taken, hi, hl⟩ := items_behind (.start input) n
  have hlength : (behind (.start input) n).location.offset +
      ((reads input n).filterMap Step.failure?).length = taken.length :=
    hl.trans (Nat.zero_add _)
  rw [left, hlength]
  change (Scanner.start input).cursor.items.drop _ = _
  rw [hi, List.drop_left]

end Session

open Session Scanner

/-- **Nothing but its place is remembered between reads**: whatever some reads came to, further ones
go on as those of a fresh scanner on what is left of the source, with every place shifted and counted
up to the limit. If the source is shorter than the limit, it does not show, and the places are just
shifted. Something is left only as long as the end has not been seen. -/
theorem reads_resume (input : Input) (n : Nat) :
    (∃ rest : Input, rest.items = left input n) ∧
      ((∃ step ∈ reads input n, step.SeesEnd) → left input n = []) ∧
      ∀ rest : Input, rest.items = left input n → ∀ k,
        let base := (behind (.start input) n).location
        let earlier := (behind (.start input) n).tokenStart
        (input.bytes.length < Location.limit →
          reads input (n + k) = reads input n ++ (reads rest k).map (·.resumed base.shift earlier)) ∧
          reads input (n + k) = reads input n ++
            (reads rest k).map (·.resumed (fun l => (base.shift l).counted) earlier) := by
  refine ⟨input.exists_items_eq_drop _, ?_, ?_⟩
  · rintro ⟨step, hmem, hend⟩
    rw [left_eq_items]
    exact items_of_mem_seesEnd hmem hend
  · intro rest hrest k base earlier
    rw [left_eq_items] at hrest
    have hp : base.Proper := proper_behind (s := .start input) Location.proper_start n
    have hsum : reads input (n + k) = reads input n ++ readsFrom (behind (.start input) n) k :=
      readsFrom_add (.start input) n k
    refine ⟨?_, ?_⟩
    · intro hlt
      obtain ⟨front, hbytes, hlength⟩ := (covers_start input).behind n
      have hshort : base.offset + rest.bytes.length < Location.limit := by
        have hoffset : base.offset = front.length := hlength.symm
        rw [hbytes, ← hrest, List.length_append, ← hoffset] at hlt
        exact hlt
      rw [hsum, (Resumes.of_items hrest.symm (Location.tracks_shift hp hshort)).readsFrom k]
      rfl
    · rw [hsum, (Resumes.of_items hrest.symm (Location.tracks_counted hp rest.bytes)).readsFrom k]
      rfl

/-- A source that fails in an escape of its second token, and ends in a string that begins on the
next line. -/
def interruptedEscape : Input :=
  ⟨[.data [0x61, 0x20, 0x28, 0x62, 0x5c], .failure ⟨.timedOut, ""⟩,
    .data [0x31, 0x29, 0x0a, 0x28, 0x63], .data [], .data [0x29]]⟩

theorem reads_interruptedEscape :
    (Input.ofBytes [0x31, 0x29, 0x0a, 0x28, 0x63]).items = left interruptedEscape 2 ∧
      interruptedEscape.bytes.length < Location.limit ∧
      reads interruptedEscape (2 + 3) = reads interruptedEscape 2 ++
        (reads (.ofBytes [0x31, 0x29, 0x0a, 0x28, 0x63]) 3).map
          (·.resumed (Location.shift ⟨5, 1, 6⟩) ⟨2, 1, 3⟩) ∧
      left interruptedEscape (4 + 1) = [] := by
  have hleft : (Input.ofBytes [0x31, 0x29, 0x0a, 0x28, 0x63]).items = left interruptedEscape 2 := by
    decide +kernel
  have hshort : interruptedEscape.bytes.length < Location.limit := by decide
  have hlocation : (behind (.start interruptedEscape) 2).location = ⟨5, 1, 6⟩ := by decide +kernel
  have hstart : (behind (.start interruptedEscape) 2).tokenStart = ⟨2, 1, 3⟩ := by decide +kernel
  have hfurther := ((reads_resume interruptedEscape 2).2.2 _ hleft 3).1 hshort
  rw [hlocation, hstart] at hfurther
  -- the fifth read is in the string when the input ends
  have hanswer : (behind (.start interruptedEscape) 4).read.answer =
    .error (.unterminated ⟨8, 2, 1⟩) := by decide +kernel
  have hend : (stepOfReading (behind (.start interruptedEscape) 4).read).response =
    .one (.error (.unterminated ⟨8, 2, 1⟩)) := congrArg Response.one hanswer
  have hlast : reads interruptedEscape (4 + 1) = reads interruptedEscape 4 ++
    [stepOfReading (behind (.start interruptedEscape) 4).read] := readsFrom_add _ 4 1
  have hseen : ∃ step ∈ reads interruptedEscape (4 + 1), step.SeesEnd :=
    ⟨_, by simp [hlast], .inr ⟨_, hend⟩⟩
  exact ⟨hleft, hshort, hfurther, (reads_resume interruptedEscape (4 + 1)).2.1 hseen⟩

/-! ## At the limit -/

/-- A gap of spaces. -/
def spaces (n : Nat) : List Byte := .replicate n 0x20

theorem lineFeed_notMem_spaces (n : Nat) : 0x0a ∉ spaces n := by
  intro h
  exact absurd (List.eq_of_mem_replicate h) (by decide)

theorem trace_spaces (n : Nat) :
    Gap.machine.trace .space (Item.ofBytes (spaces n)) = ⟨.done (), spaces n, []⟩ := by
  induction n with
  | zero => rfl
  | succ n ih => exact congrArg (·.behind [0x20]) ih

/-- Before spaces a read comes to the end of the input. -/
theorem location_of_spaces {s : Scanner} {n : Nat} (h : s.cursor.items = Item.ofBytes (spaces n)) :
    (stepOfReading s.read).location = s.location.advanceAll (spaces n) := by
  have hl : Lexeme.machine.trace .fresh [] = ⟨.rejected .lexeme, [], []⟩ := rfl
  obtain ⟨c, hr, -, hc⟩ := read_of_traces (h ▸ trace_spaces n) hl
  rw [List.append_nil] at hc
  rw [hr]
  exact hc

/-- A bracket is read, and the scanner stands behind it. -/
theorem read_of_bracket {s : Scanner} {rest : List Item}
    (h : s.cursor.items = .byte 0x5b :: rest) :
    s.read.after.cursor.items = rest ∧ s.read.after.location = s.location.advance 0x5b := by
  have hg : Gap.machine.trace .space s.cursor.items = ⟨.done (), [], .byte 0x5b :: rest⟩ := by
    rw [h]
    rfl
  have hl : Lexeme.machine.trace .fresh (.byte 0x5b :: rest) =
    ⟨.done ⟨⟨.mark .arrayStart, ['[']⟩, none⟩, [0x5b], rest⟩ := rfl
  obtain ⟨c, hr, hi, hc⟩ := read_of_traces hg hl
  rw [hr]
  exact ⟨hi, hc⟩

/-- A bracket and spaces behind it. -/
def bracketLine (n : Nat) : Input := .ofBytes (0x5b :: spaces n)

/-- If the spaces alone come to the last column, the column behind the bracket and the spaces is not
counted any more. -/
theorem reads_ne_of_limit {n : Nat} (hn : n + 1 = Location.limit) :
    (Input.ofBytes (spaces n)).items = left (bracketLine n) 1 ∧
      reads (bracketLine n) (1 + 1) ≠ reads (bracketLine n) 1 ++ (reads (.ofBytes (spaces n)) 1).map
        (·.resumed (behind (.start (bracketLine n)) 1).location.shift
          (behind (.start (bracketLine n)) 1).tokenStart) := by
  have hitems : (start (bracketLine n)).cursor.items = .byte 0x5b :: Item.ofBytes (spaces n) :=
    Input.delivers_ofBytes _
  obtain ⟨hafter, hbase⟩ := read_of_bracket hitems
  have hfresh : (start (.ofBytes (spaces n))).cursor.items = Item.ofBytes (spaces n) :=
    Input.delivers_ofBytes _
  refine ⟨?_, ?_⟩
  · rw [left_eq_items]
    exact hfresh.trans hafter.symm
  · intro h
    have hlast := List.head_eq_of_cons_eq (List.tail_eq_of_cons_eq h)
    -- the column in the whole, and the one behind the spaces alone
    have hwhole : (stepOfReading (start (bracketLine n)).read.after.read).location.column =
        Location.limit := by
      have hnone : 0x0a ∉ 0x5b :: spaces n := by simp [lineFeed_notMem_spaces]
      have hplace : (stepOfReading (start (bracketLine n)).read.after.read).location =
          Location.start.advanceAll (0x5b :: spaces n) := by
        rw [location_of_spaces hafter, hbase]
        rfl
      rw [hplace, Location.start_advanceAll, Location.after_of_notMem hnone]
      simp only [Location.counted, List.length_cons, spaces, List.length_replicate]
      omega
    have hpart : (stepOfReading (start (.ofBytes (spaces n))).read).location =
        ⟨n, 1, Location.limit⟩ := by
      have hplace : (stepOfReading (start (.ofBytes (spaces n))).read).location =
        Location.start.advanceAll (spaces n) := location_of_spaces hfresh
      rw [hplace, Location.start_advanceAll, Location.after_of_notMem (lineFeed_notMem_spaces n)]
      simp only [Location.counted, spaces, List.length_replicate, Location.mk.injEq]
      exact ⟨trivial, rfl, by omega⟩
    have hshifted : (stepOfReading (start (bracketLine n)).read.after.read).location =
        (behind (.start (bracketLine n)) 1).location.shift ⟨n, 1, Location.limit⟩ := by
      rw [← hpart]
      exact congrArg Step.location hlast
    have hbehind : (behind (.start (bracketLine n)) 1).location = ⟨1, 1, 2⟩ := hbase
    rw [hshifted, hbehind] at hwhole
    exact absurd hwhole (Nat.succ_ne_self _)

/-- A bracket and 4294967294 spaces are fewer than 2 ^ 32 bytes, and too many for the column. -/
theorem reads_bracketLine :
    (bracketLine 4294967294).bytes.length < 4294967296 ∧
      (Input.ofBytes (spaces 4294967294)).items = left (bracketLine 4294967294) 1 ∧
      reads (bracketLine 4294967294) (1 + 1) ≠ reads (bracketLine 4294967294) 1 ++
        (reads (.ofBytes (spaces 4294967294)) 1).map
          (·.resumed (behind (.start (bracketLine 4294967294)) 1).location.shift
            (behind (.start (bracketLine 4294967294)) 1).tokenStart) := by
  have hlength : ∀ n, (bracketLine n).bytes.length = n + 1 := by
    intro n
    rw [bracketLine, (Input.delivers_ofBytes _).bytes_eq, List.length_cons, spaces,
      List.length_replicate]
  refine ⟨?_, reads_ne_of_limit rfl⟩
  rw [hlength]
  decide

end PageTokens
