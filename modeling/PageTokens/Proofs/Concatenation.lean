import PageTokens.Proofs.Consumers
import PageTokens.Proofs.Layout
import PageTokens.Proofs.Places

/-!
# One input behind another

If a line feed is put between two inputs, the scan of the whole is the scan of the first and then
that of the second, with the places of the second counted from where it begins. The line feed is to
the first what its end was (`ScansTo.before_gap`), so its pieces are read as before, and then the
scanner stands before the last gap, the line feed and the second input, which it goes on with
(`Scanner.Resumes`).

The main statement is `tokenize_lines`.
-/

namespace PageTokens

/-! ## Places below a line -/

namespace Location

/-- The place of a place in what stands below some bytes. -/
def below (bytes : List Byte) (l : Location) : Location :=
  ⟨l.offset + bytes.length + 1, l.line + bytes.count 0x0a + 1, l.column⟩

theorem counted_shift_line {l : Location} (h : l.Proper) (bytes : List Byte) :
    ((start.advanceAll (bytes ++ [0x0a])).shift l).counted = (l.below bytes).counted := by
  have hpos := h.line_pos
  have hline : (bytes ++ [0x0a]).count 0x0a = bytes.count 0x0a + 1 := List.count_append
  rw [start_advanceAll, after, List.rtakeWhile_concat_neg _ _ _ (by simp), hline]
  simp only [shift, counted, below, List.length_append, List.length_singleton, List.length_nil,
    mk.injEq]
  refine ⟨by omega, by omega, ?_⟩
  split <;> rfl

/-- Below some bytes the places are those of what stands there, counted from there. -/
theorem tracks_below (bytes rest : List Byte) :
    Tracks (fun l => (l.below bytes).counted) start (start.advanceAll (bytes ++ [0x0a])) rest := by
  intro front hfront
  have hbase : (start.advanceAll (bytes ++ [0x0a])).Proper := proper_start.advanceAll _
  refine (tracks_counted hbase rest front hfront).trans ?_
  exact counted_shift_line (proper_start.advanceAll front) bytes

/-- Where fewer bytes than the limit stand above and before a place, the limit does not show. -/
theorem counted_below {l : Location} (h : l.Proper) {bytes : List Byte}
    (hlt : bytes.length + l.offset + 1 < limit) : (l.below bytes).counted = l.below bytes := by
  have hcount : bytes.count 0x0a ≤ bytes.length := List.count_le_length
  have hline := h.line_le
  refine counted_of_le ?_ h.column_le_limit
  simp only [below]
  omega

end Location

/-! ## The same pieces before different rests -/

open Session Scanner

/-- The tokens of some pieces, the first of which begins at a place, and where they begin. -/
def found (l : Location) : List Piece → List (Token × Location)
  | [] => []
  | p :: ps => (p.token, l.advanceAll p.gap) :: found (l.advanceAll p.bytes) ps

theorem map_fst_found (l : Location) (ps : List Piece) :
    (found l ps).map Prod.fst = ps.map Piece.token := by
  induction ps generalizing l with
  | nil => rfl
  | cons p ps ih => exact congrArg (p.token :: ·) (ih _)

section SamePieces

variable {rest rest' : List Byte} {s s' : Scanner}

/-- A read of a piece comes to the same wherever the piece can be taken from. -/
theorem stepOfReading_eq_of_fits {p : Piece} (h : p.Fits rest) (h' : p.Fits rest')
    (hl : s'.location = s.location) (hi : s.cursor.items = Item.ofBytes (p.bytes ++ rest))
    (hi' : s'.cursor.items = Item.ofBytes (p.bytes ++ rest')) :
    stepOfReading s'.read = stepOfReading s.read := by
  by_cases hself : Lexeme.SelfDelimiting p.token (Byte.text p.lexeme)
  · rw [Item.ofBytes_append] at hi'
    exact stepOfReading_eq_of_piece h hl hi hi' (.inr hself)
  · -- an open lexeme is noted as such before either rest
    have ho := h.spells.resolve_left (mt Lexeme.Closed.selfDelimiting hself)
    have ho' := h'.spells.resolve_left (mt Lexeme.Closed.selfDelimiting hself)
    rw [Item.ofBytes_append] at hi hi'
    obtain ⟨c, hr, -, hloc⟩ :=
      read_of_lexeme_trace h (ho.trace (Machine.begins_ofBytes rest)) hi
    obtain ⟨c', hr', -, hloc'⟩ :=
      read_of_lexeme_trace h' (ho'.trace (Machine.begins_ofBytes rest')) hi'
    rw [hl] at hr' hloc'
    rw [hr, hr']
    simp [stepOfReading, stepOf, conclude, finding, Scanner.location, hloc, hloc']

namespace ScansTo

variable {bytes bytes' : List Byte} {ps : List Piece}

/-- Reads of pieces come to the same wherever the pieces can be taken from. -/
theorem readsFrom_eq (h : ScansTo bytes ps rest) (h' : ScansTo bytes' ps rest')
    (hl : s'.location = s.location) (hi : s.cursor.items = Item.ofBytes bytes)
    (hi' : s'.cursor.items = Item.ofBytes bytes') :
    readsFrom s' ps.length = readsFrom s ps.length := by
  induction h generalizing s s' bytes' with
  | nil => rfl
  | @cons p ps mid rest hp _ ih =>
    obtain _ | ⟨hp', hps'⟩ := h'
    obtain ⟨-, hafter, hloc⟩ := after_piece hp hi
    obtain ⟨-, hafter', hloc'⟩ := after_piece hp' hi'
    rw [hl, ← hloc] at hloc'
    rw [List.length_cons, readsFrom_succ, readsFrom_succ, stepOfReading_eq_of_fits hp hp' hl hi hi',
      ih hps' hloc' hafter hafter']

/-- Before pieces a scanner yields their tokens, and what is yielded behind them. -/
theorem yields (h : ScansTo bytes ps rest) (hi : s.cursor.items = Item.ofBytes bytes) {scan : Scan}
    (hscan : (Session.behind s ps.length).Yields scan) :
    s.Yields ⟨found s.location ps ++ scan.found, scan.error⟩ := by
  induction h generalizing s with
  | nil => exact hscan
  | @cons p ps mid rest hp _ ih =>
    obtain ⟨ha, hafter, hloc⟩ := after_piece hp hi
    obtain ⟨-, hstart, -⟩ := stepOfReading_of_piece hp hi
    have hstart : s.read.after.tokenStart = s.location.advanceAll p.gap := hstart
    have hyields := Yields.token ha (ih hafter hscan)
    rw [hloc, hstart] at hyields
    exact hyields

end ScansTo

end SamePieces

/-! ## Going on with the second input -/

namespace Gap

/-- A gap at the end of an input is closed by a line feed behind it. -/
theorem feed_line {gap : Text} (h : Fills gap []) :
    Advance.feed step .space (gap ++ ['\n']) = some .space := by
  rw [Advance.feed_append]
  rcases feed_of_fills h with hf | ⟨hf, -⟩ <;> rw [hf] <;> rfl

end Gap

namespace Scanner

/-- Without a failure ahead, a read notes where its gap ends, and something stands there unless it
comes to the end. -/
theorem tokenStart_read {s : Scanner} (hfree : ∀ f, .failure f ∉ s.cursor.items) :
    ∃ gap rest, Item.bytes s.cursor.items = gap ++ rest ∧
      s.read.after.tokenStart = s.location.advanceAll gap ∧
      (s.read.answer ≠ .ended → rest ≠ []) := by
  have hitems := Gap.machine.items_eq_trace .space s.cursor.items
  rcases gap_trace_cases s.cursor.items with ⟨gap, mid, hg⟩ | ⟨f, gap, rest, hg⟩
  · rcases hl : Lexeme.machine.trace .fresh mid with ⟨e, lexeme, rest⟩
    obtain ⟨c, hr, -⟩ := read_of_traces hg hl
    refine ⟨gap, Item.bytes mid, Machine.bytes_of_trace hg, ?_, ?_⟩
    · rw [hr, tokenStart_conclude]
    · intro hanswer
      rcases mid with _ | ⟨b | f, mid⟩
      · cases hl
        exact absurd (congrArg Reading.answer hr) hanswer
      · exact List.cons_ne_nil _ _
      · refine absurd ?_ (hfree f)
        rw [hitems, hg]
        simp [Ending.items]
  · refine absurd ?_ (hfree f)
    rw [hitems, hg]
    simp [Ending.items]

/-- An error names the place where the read began. -/
theorem tokenStart_of_unterminated {s : Scanner} {l : Location}
    (h : s.read.answer = .error (.unterminated l)) : s.read.after.tokenStart = l := by
  rcases gap_trace_cases s.cursor.items with ⟨gap, mid, hg⟩ | ⟨f, gap, rest, hg⟩
  · rcases hl : Lexeme.machine.trace .fresh mid with ⟨e, lexeme, rest⟩
    obtain ⟨c, hr, -⟩ := read_of_traces hg hl
    rw [hr] at h ⊢
    rcases e with ⟨t, remark⟩ | ⟨_ | _⟩ | f
    · cases h
    · cases h
    · exact ScanError.unterminated.inj (Answer.error.inj h)
    · cases h
  · obtain ⟨c, hr, -⟩ := read_of_gap_failure hg
    rw [hr] at h
    cases h

/-- A scanner somewhere in an input, with no failure ahead. -/
structure Free (input : Input) (s : Scanner) : Prop where
  /-- what stands before it is what the input has there -/
  covers : Covers input s
  /-- its place is counted from the beginning -/
  proper : s.location.Proper
  /-- no read fails from there on -/
  free : ∀ f, .failure f ∉ s.cursor.items

section Free

variable {input : Input} {s : Scanner}

theorem free_start {bytes : List Byte} (h : input.Delivers bytes) : Free input (start input) := by
  refine ⟨covers_start input, Location.proper_start, ?_⟩
  intro f hf
  have hbytes : .failure f ∈ Item.ofBytes bytes := h ▸ hf
  simp [Item.ofBytes] at hbytes

theorem Free.read (h : Free input s) : Free input s.read.after := by
  obtain ⟨bytes, hitems, hloc⟩ := s.items_read
  refine ⟨h.covers.read, hloc ▸ h.proper.advanceAll bytes, ?_⟩
  intro f hf
  refine h.free f ?_
  rw [hitems]
  simp [hf]

/-- A read notes a place in the input, which is not its end unless it comes to the end. -/
theorem Free.tokenStart (h : Free input s) :
    s.read.after.tokenStart.Proper ∧
      (s.read.answer ≠ .ended → s.read.after.tokenStart.offset < input.bytes.length) := by
  obtain ⟨gap, rest, hbytes, hstart, hrest⟩ := tokenStart_read h.free
  obtain ⟨front, hinput, hlength⟩ := h.covers
  rw [hstart]
  refine ⟨h.proper.advanceAll gap, ?_⟩
  intro hanswer
  have hpos := List.length_pos_iff.mpr (hrest hanswer)
  rw [Location.offset_advanceAll, ← hlength, hinput, hbytes]
  simp only [List.length_append]
  omega

theorem Free.of_mem_readsFrom (h : Free input s) {n : Nat} :
    ∀ step ∈ readsFrom s n, step.tokenStart.Proper ∧
      (step.response ≠ .one .ended → step.tokenStart.offset < input.bytes.length) := by
  induction n generalizing s with
  | zero =>
    intro step hstep
    cases hstep
  | succ n ih =>
    obtain ⟨hproper, hlt⟩ := h.tokenStart
    rw [readsFrom_succ]
    refine List.forall_mem_cons.mpr ⟨⟨hproper, ?_⟩, ih h.read⟩
    intro hresponse
    exact hlt fun hanswer => hresponse (congrArg Response.one hanswer)

/-- The place that an error names is one in the input. -/
theorem Free.of_error (h : Free input s) {scan : Scan} (hscan : s.Yields scan) {l : Location}
    (he : scan.error = some (.unterminated l)) : l.Proper ∧ l.offset < input.bytes.length := by
  induction hscan with
  | ended => cases he
  | error ha =>
    obtain rfl := Option.some.inj he
    obtain ⟨hproper, hlt⟩ := h.tokenStart
    have hne : ∀ {a : Answer} {e : ScanError}, a = .error e → a ≠ .ended := by
      rintro _ e rfl ⟨⟩
    rw [tokenStart_of_unterminated ha] at hproper hlt
    exact ⟨hproper, hlt (hne ha)⟩
  | token _ _ ih => exact ih h.read he

end Free

theorem Resumes.answer {place : Location → Location} {earlier : Location} {fresh s : Scanner}
    (h : Resumes place earlier fresh s) : s.read.answer = fresh.read.answer.moved place :=
  Response.one.inj (congrArg Step.response h.read.1)

/-- A scanner that goes on with what stands before a fresh one yields the same, with the place of
the error told in the other way. -/
theorem Resumes.exists_yields {place : Location → Location} {earlier : Location}
    {fresh s : Scanner} {scan : Scan} (h : Resumes place earlier fresh s) (hscan : fresh.Yields scan) :
    ∃ scan' : Scan, s.Yields scan' ∧ scan'.tokens = scan.tokens ∧
      scan'.error = scan.error.map (·.moved place) := by
  induction hscan generalizing s with
  | ended ha =>
    have hs := h.answer
    rw [ha] at hs
    exact ⟨_, .ended hs, rfl, rfl⟩
  | error ha =>
    have hs := h.answer
    rw [ha] at hs
    exact ⟨_, .error hs, rfl, rfl⟩
  | @token fresh t scan ha _ ih =>
    have hs := h.answer
    rw [ha] at hs
    obtain ⟨scan', hscan', htokens, herror⟩ := ih h.read.2
    exact ⟨_, .token hs hscan', congrArg (t :: ·) htokens, herror⟩

end Scanner

/-! ## The main statement -/

section Lines

variable {as bs gap : List Byte} {ps : List Piece} {a b whole : Input}

/-- The pieces of an input are its pieces before a line feed too. -/
theorem ScansTo.before_line (h : ScansTo as ps gap) (hgap : Gap.Fills (Byte.text gap) [])
    (hlast : ∀ p ∈ ps.getLast?, ¬ p.EndsWithInput) (bs : List Byte) :
    ScansTo (as ++ 0x0a :: bs) ps (gap ++ 0x0a :: bs) := by
  have hopens : ∀ c ∈ (Byte.text (gap ++ 0x0a :: bs)).head?, Gap.Opens c := by
    by_cases hne : gap = []
    · rw [hne]
      intro c hc
      exact .inl (Option.some.inj hc ▸ rfl)
    · rw [Byte.head?_text_append hne]
      exact hgap.opens
  have hline := h.before_gap hopens fun p hp he => absurd he (hlast p hp)
  rw [← List.append_assoc, ← h.eq_append] at hline
  exact hline

/-- Behind the pieces of the first input, a scanner of the whole goes on with the second one. -/
theorem resumes_line (hps : ScansTo (as ++ 0x0a :: bs) ps (gap ++ 0x0a :: bs))
    (hgap : Gap.Fills (Byte.text gap) []) (hb : b.Delivers bs)
    (hwhole : whole.Delivers (as ++ 0x0a :: bs)) :
    Resumes (fun l => (l.below as).counted) (behind (.start whole) ps.length).tokenStart (.start b)
      (behind (.start whole) ps.length) := by
  have hitems : (Scanner.start whole).cursor.items = Item.ofBytes (as ++ 0x0a :: bs) := hwhole
  obtain ⟨hbehind, hloc⟩ := hps.behind hitems
  have hbytes : as = ps.flatMap Piece.bytes ++ gap := by
    have heq := hps.eq_append
    rw [← List.append_assoc] at heq
    exact List.append_cancel_right heq
  refine ⟨⟨gap ++ [0x0a], ?_, ?_, ?_⟩, Location.proper_start, rfl⟩
  · rw [Byte.text_append]
    exact Gap.feed_line hgap
  · have hstart : (Scanner.start b).cursor.items = Item.ofBytes bs := hb
    rw [hbehind, hstart, ← Item.ofBytes_append, ← List.append_cons]
  · have hbase : (behind (.start whole) ps.length).location.advanceAll (gap ++ [0x0a]) =
        Location.start.advanceAll (as ++ [0x0a]) := by
      have hstart : (Scanner.start whole).location = .start := rfl
      rw [hloc, hstart, ← Location.advanceAll_append, ← List.append_assoc, ← hbytes]
    rw [hbase]
    exact Location.tracks_below as _

/-- The whole yields the tokens of the first input, and then what the second one yields. -/
theorem exists_yields_line (hps : ScansTo (as ++ 0x0a :: bs) ps (gap ++ 0x0a :: bs))
    (hgap : Gap.Fills (Byte.text gap) []) (hb : b.Delivers bs)
    (hwhole : whole.Delivers (as ++ 0x0a :: bs)) {scan : Scan} (hscan : (start b).Yields scan) :
    ∃ all : Scan, (start whole).Yields all ∧ all.tokens = ps.map Piece.token ++ scan.tokens ∧
      all.error = scan.error.map (·.moved fun l => (l.below as).counted) := by
  have hitems : (Scanner.start whole).cursor.items = Item.ofBytes (as ++ 0x0a :: bs) := hwhole
  obtain ⟨scan', hscan', htokens', herror'⟩ :=
    (resumes_line hps hgap hb hwhole).exists_yields hscan
  refine ⟨_, hps.yields hitems hscan', ?_, herror'⟩
  rw [Scan.tokens, List.map_append, map_fst_found]
  exact congrArg (_ ++ ·) htokens'

/-- The whole is read as the second input is, behind the pieces of the first. -/
theorem readsFrom_line (hps : ScansTo (as ++ 0x0a :: bs) ps (gap ++ 0x0a :: bs))
    (hgap : Gap.Fills (Byte.text gap) []) (hb : b.Delivers bs)
    (hwhole : whole.Delivers (as ++ 0x0a :: bs)) (k : Nat) :
    readsFrom (behind (.start whole) ps.length) k =
      (reads b k).map (·.moved fun l => (l.below as).counted) := by
  rw [(resumes_line hps hgap hb hwhole).readsFrom k]
  refine List.map_congr_left ?_
  intro step hstep
  exact Step.resumed_of_proper _ ((free_start hb).of_mem_readsFrom step hstep).1 _

/-- **Scanning distributes over lines**: if a line feed is put between two inputs, of which the
first is tokenized and does not end with a string that only its end closes, the whole is tokenized
to the tokens of both, or fails where the second does; and its reads are those of the first, and
then those of the second, with every place counted from where the second begins. As long as both
together are shorter than the limit, it shows neither in the place of an error nor where a token
begins. -/
theorem tokenize_lines (ha : a.Delivers as) (hb : b.Delivers bs)
    (hwhole : whole.Delivers (as ++ 0x0a :: bs)) {ts : List Token} (hts : tokenize a = .ok ts)
    (hlast : ∀ p ∈ (pieces as 0 (reads a ts.length)).getLast?, ¬ p.EndsWithInput) :
    (∀ us, tokenize b = .ok us → tokenize whole = .ok (ts ++ us)) ∧
      (∀ k, reads whole (ts.length + k) =
        reads a ts.length ++ (reads b k).map (·.moved fun l => (l.below as).counted)) ∧
      (as.length + bs.length < Location.limit →
        (∀ l, tokenize b = .error (.unterminated l) →
          tokenize whole = .error (.unterminated
            ⟨l.offset + as.length + 1, l.line + as.count 0x0a + 1, l.column⟩)) ∧
        ∀ k, ∀ step ∈ reads b k, step.response ≠ .one .ended →
          (step.tokenStart.below as).counted =
            ⟨step.tokenStart.offset + as.length + 1, step.tokenStart.line + as.count 0x0a + 1,
              step.tokenStart.column⟩) := by
  obtain ⟨ps, gap, hps, hgap, rfl⟩ := scans_of_tokenize ha hts
  rw [List.length_map] at hlast ⊢
  rw [pieces_reads ha hps] at hlast
  have hline := hps.before_line hgap hlast bs
  obtain ⟨scan, hscan⟩ := exists_yields (.start b)
  obtain ⟨all, hall, htokens, herror⟩ := exists_yields_line hline hgap hb hwhole hscan
  have hresult : tokenize b = scan.result := hscan.collect rfl
  have hresult' : tokenize whole = all.result := hall.collect rfl
  have hfree := free_start hb
  refine ⟨?_, ?_, ?_⟩
  · intro us hus
    rw [hresult, Scan.result_eq_ok] at hus
    rw [hresult', Scan.result_eq_ok, herror, htokens, hus.1, hus.2]
    exact ⟨rfl, rfl⟩
  · intro k
    have hitems : (Scanner.start a).cursor.items = Item.ofBytes as := ha
    have hitems' : (Scanner.start whole).cursor.items = Item.ofBytes (as ++ 0x0a :: bs) := hwhole
    have hfirst : readsFrom (.start whole) ps.length = readsFrom (.start a) ps.length :=
      hps.readsFrom_eq hline rfl hitems hitems'
    have hsum : reads whole (ps.length + k) = readsFrom (.start whole) ps.length ++
      readsFrom (behind (.start whole) ps.length) k := readsFrom_add _ _ _
    rw [hsum, hfirst, readsFrom_line hline hgap hb hwhole]
    rfl
  · intro hlt
    -- what begins in the second input begins before its end
    have hexact : ∀ l : Location, l.Proper → l.offset < b.bytes.length →
        (l.below as).counted = l.below as := by
      intro l hl hoffset
      rw [hb.bytes_eq] at hoffset
      exact Location.counted_below hl (by omega)
    refine ⟨?_, ?_⟩
    · intro l hl
      rw [hresult, Scan.result_eq_error] at hl
      obtain ⟨hproper, hoffset⟩ := hfree.of_error hscan hl
      rw [hresult', Scan.result_eq_error, herror, hl]
      exact congrArg (fun place => some (ScanError.unterminated place)) (hexact l hproper hoffset)
    · intro k step hstep hresponse
      obtain ⟨hproper, hoffset⟩ := hfree.of_mem_readsFrom step hstep
      exact hexact _ hproper (hoffset hresponse)

end Lines

/-- `x%c`, a comment that goes to the end. -/
def openComment : List Byte := [0x78, 0x25, 0x63]

theorem tokenize_openComment :
    tokenize (.ofBytes openComment) = .ok [⟨.name, ['x']⟩] ∧
      (∀ p ∈ (pieces openComment 0 (reads (.ofBytes openComment) 1)).getLast?,
        ¬ p.EndsWithInput) ∧
      -- before `2`
      tokenize (.ofBytes (openComment ++ 0x0a :: [0x32])) =
        .ok ([⟨.name, ['x']⟩] ++ [⟨.numeral .integer, ['2']⟩]) ∧
      -- before a string without its end, on a second line
      tokenize (.ofBytes (openComment ++ 0x0a :: [0x0a, 0x28])) =
        .error (.unterminated ⟨1 + 3 + 1, 2 + 0 + 1, 1⟩) := by
  have htokens : tokenize (.ofBytes openComment) = .ok [⟨.name, ['x']⟩] := by decide +kernel
  have hpieces : pieces openComment 0 (reads (.ofBytes openComment) 1) =
    [⟨[], [0x78], ⟨.name, ['x']⟩⟩] := by decide +kernel
  have hlast : ∀ p ∈ (pieces openComment 0 (reads (.ofBytes openComment) 1)).getLast?,
      ¬ p.EndsWithInput := by
    rw [hpieces]
    rintro p hp ⟨hk, -⟩
    obtain rfl := Option.some.inj hp
    cases hk
  have hdelivers := Input.delivers_ofBytes
  obtain ⟨hgood, -⟩ := tokenize_lines (hdelivers openComment) (hdelivers [0x32]) (hdelivers _)
    htokens hlast
  obtain ⟨-, -, hshort⟩ := tokenize_lines (hdelivers openComment) (hdelivers [0x0a, 0x28])
    (hdelivers _) htokens hlast
  have hbad := (hshort (by decide)).1
  have hnumeral : tokenize (.ofBytes [0x32]) = .ok [⟨.numeral .integer, ['2']⟩] := by decide +kernel
  have hstring : tokenize (.ofBytes [0x0a, 0x28]) = .error (.unterminated ⟨1, 2, 1⟩) := by
    decide +kernel
  exact ⟨htokens, hlast, hgood _ hnumeral, hbad _ hstring⟩

end PageTokens
