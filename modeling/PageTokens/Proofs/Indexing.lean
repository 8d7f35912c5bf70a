import PageTokens.Proofs.Finality
import PageTokens.Proofs.Places

/-!
# The cursor as an index

A cursor holds a reader, may have looked at what stands next, and keeps the end once it has seen it.
To who calls it, it is an index into the bytes of its input: `Call.reply` says what the index
answers, and `Call.moves` where it goes. What the source does besides, a failure here and there,
shows in a call that fails, and in nothing else: the index stays, and the failure is gone.

A cursor stands at an index (`Cursor.StandsAt`) if the bytes before it are those from the index on,
with the failures among them at their indices, and its location is the place of the index. One call
keeps this, and so a sequence of them is told by the index alone (`Cursor.Follows`).

The place of an index is known by how it is counted (`Counts`). It is what the bytes before the index
make (`placeAt`), but for the limit of lines and columns. The main statement is `answers_follow`.
-/

namespace PageTokens

/-! ## An index into bytes -/

/-- The failures among items, each with the index of the byte that it keeps from being read. -/
def Item.failuresFrom : Nat → List Item → List (Nat × Failure)
  | _, [] => []
  | i, .byte _ :: items => failuresFrom (i + 1) items
  | i, .failure f :: items => (i, f) :: failuresFrom i items

/-- The failures of a source. -/
def Input.failures (input : Input) : List (Nat × Failure) := Item.failuresFrom 0 input.items

/-- The place of an index: how many bytes stand before it, how many of them are line feeds, and how
many stand behind the last of these. -/
def placeAt (bytes : List Byte) (i : Nat) : Location :=
  ⟨i, 1 + (bytes.take i).count 0x0a, 1 + ((bytes.take i).rtakeWhile (· ≠ 0x0a)).length⟩

namespace Cursor

namespace Call

/-- What an index replies to a call. -/
def reply (bytes : List Byte) (i : Nat) : Call → Reply
  | .peek | .bump => .byte bytes[i]?
  | .eat expected => .flag (bytes[i]? = some expected)
  | .atEnd => .flag (i = bytes.length)

/-- Where a call leaves an index: one further if a byte is taken. -/
def moves (bytes : List Byte) (i : Nat) : Call → Nat
  | .bump => if i < bytes.length then i + 1 else i
  | .eat expected => if bytes[i]? = some expected then i + 1 else i
  | .peek | .atEnd => i

end Call

/-- What an index replies to a sequence of calls, and the place where each of them leaves it. -/
def indexed (place : Nat → Location) (bytes : List Byte) (i : Nat) :
    List Call → List (Reply × Location)
  | [] => []
  | call :: calls =>
    (call.reply bytes i, place (call.moves bytes i)) ::
      indexed place bytes (call.moves bytes i) calls

/-- Answers to a sequence of calls, as an index has them among failures. -/
inductive Follows (place : Nat → Location) (bytes : List Byte) :
    List (Nat × Failure) → Nat → List Call → List (Except Failure Reply × Location) → Prop
  /-- no call -/
  | nil {failures : List (Nat × Failure)} {i : Nat} : Follows place bytes failures i [] []
  /-- a failure stands at the index: it is the answer, and the index stays -/
  | failed {failures : List (Nat × Failure)} {i : Nat} {f : Failure} {call : Call}
      {calls : List Call} {answers : List (Except Failure Reply × Location)} :
      Follows place bytes failures i calls answers →
      Follows place bytes ((i, f) :: failures) i (call :: calls) ((.error f, place i) :: answers)
  /-- no failure stands there -/
  | answered {failures : List (Nat × Failure)} {i : Nat} {call : Call} {calls : List Call}
      {answers : List (Except Failure Reply × Location)} :
      (∀ f, failures.head? ≠ some (i, f)) →
      Follows place bytes failures (call.moves bytes i) calls answers →
      Follows place bytes failures i (call :: calls)
        ((.ok (call.reply bytes i), place (call.moves bytes i)) :: answers)

/-- The calls that did not fail, each with the reply and where it left the cursor. -/
def kept : List Call → List (Except Failure Reply × Location) → List (Call × Reply × Location)
  | call :: calls, (.ok reply, l) :: answers => (call, reply, l) :: kept calls answers
  | _ :: calls, (.error _, _) :: answers => kept calls answers
  | _, _ => []

/-! ## What a cursor looks at -/

/-- A call is answered by what the cursor sees next, and passes it or not. -/
theorem answer_of_some {c c' : Cursor} {b : Byte} (h : c.peek = (.ok (some b), c')) :
    c.answer .peek = (.ok (.byte (some b)), c') ∧
      c.answer .bump = (.ok (.byte (some b)), c'.pass b) ∧
      (∀ expected, c.answer (.eat expected) =
        (.ok (.flag (some b = some expected)), if b = expected then c'.pass b else c')) ∧
      c.answer .atEnd = (.ok (.flag false), c') := by
  refine ⟨by rw [answer, h]; rfl, by rw [answer, bump, h]; rfl, ?_, by rw [answer, atEnd, h]; rfl⟩
  intro expected
  rw [answer, eat, h]
  by_cases hb : b = expected <;> simp [hb, Except.map]

theorem answer_of_none {c c' : Cursor} (h : c.peek = (.ok none, c')) (call : Call) :
    c.answer call = (.ok (call.reply [] 0), c') := by
  cases call with
  | peek => rw [answer, h]; rfl
  | bump => rw [answer, bump, h]; rfl
  | eat expected => rw [answer, eat, h]; simp [Call.reply, Except.map]
  | atEnd => rw [answer, atEnd, h]; rfl

/-- A failed look is the answer to every call. -/
theorem answer_of_error {c c' : Cursor} {f : Failure} (h : c.peek = (.error f, c')) (call : Call) :
    c.answer call = (.error f, c') := by
  cases call with
  | peek => rw [answer, h]; rfl
  | bump => rw [answer, bump, h]; rfl
  | eat expected => rw [answer, eat, h]; rfl
  | atEnd => rw [answer, atEnd, h]; rfl

/-! ## Standing at an index -/

/-- Indices have these places if bytes are counted one after another. -/
structure Counts (bytes : List Byte) (place : Nat → Location) : Prop where
  /-- the first index has the first place -/
  start : place 0 = .start
  /-- past a byte, the place is the one behind it -/
  advance : ∀ {i b}, bytes[i]? = some b → place (i + 1) = (place i).advance b

/-- A cursor stands at an index of some bytes, with failures behind it. -/
structure StandsAt (place : Nat → Location) (bytes : List Byte) (failures : List (Nat × Failure))
    (i : Nat) (c : Cursor) : Prop where
  /-- how places are counted -/
  counts : Counts bytes place
  /-- the bytes that it has still to give -/
  rest : Item.bytes c.items = bytes.drop i
  /-- the failures that it has still to report -/
  due : Item.failuresFrom i c.items = failures
  /-- it is not beyond the end -/
  le : i ≤ bytes.length
  /-- its place is that of the index -/
  location : c.location = place i

end Cursor

/-- A failure stands at the index where counting begins, or behind it. -/
theorem Item.le_of_mem_failuresFrom {i n : Nat} {f : Failure} {items : List Item}
    (h : (n, f) ∈ failuresFrom i items) : i ≤ n := by
  induction items generalizing i with
  | nil => cases h
  | cons item items ih =>
    cases item with
    | byte b => exact Nat.le_of_succ_le (ih h)
    | failure g =>
      rcases List.mem_cons.mp h with he | h
      · exact Nat.le_of_eq (Prod.mk.inj he).1.symm
      · exact ih h

theorem placeAt_eq {bytes : List Byte} {i : Nat} (h : i ≤ bytes.length) :
    placeAt bytes i = Location.after (bytes.take i) := by
  rw [Location.after, List.length_take_of_le h, placeAt]

/-- The places of indices are counted up to the limit. -/
theorem counts_counted (bytes : List Byte) : Cursor.Counts bytes fun i => (placeAt bytes i).counted where
  start := rfl
  advance := by
    intro i b h
    obtain ⟨hlt, -⟩ := List.getElem?_eq_some_iff.mp h
    simp only [placeAt_eq hlt, placeAt_eq (Nat.le_of_lt hlt), ← Location.start_advanceAll]
    rw [List.take_add_one, h, Location.advanceAll_append]
    rfl

/-- Among fewer bytes than the limit, it does not show. -/
theorem counts_placeAt {bytes : List Byte} (h : bytes.length < Location.limit) :
    Cursor.Counts bytes (placeAt bytes) := by
  have hcounted : ∀ i, i ≤ bytes.length → (placeAt bytes i).counted = placeAt bytes i := by
    intro i hi
    rw [placeAt_eq hi, Location.counted_after]
    rw [List.length_take_of_le hi]
    exact Nat.lt_of_le_of_lt hi h
  refine ⟨rfl, ?_⟩
  intro i b hb
  obtain ⟨hlt, -⟩ := List.getElem?_eq_some_iff.mp hb
  have hadvance := (counts_counted bytes).advance hb
  rwa [hcounted _ hlt, hcounted _ (Nat.le_of_lt hlt)] at hadvance

namespace Cursor

variable {place : Nat → Location} {bytes : List Byte} {failures : List (Nat × Failure)} {i : Nat}
  {c : Cursor}

theorem standsAt_start {input : Input} (hplace : Counts input.bytes place) :
    StandsAt place input.bytes input.failures 0 (start input) :=
  ⟨hplace, rfl, rfl, Nat.zero_le _, hplace.start.symm⟩

/-- Before a byte the index answers with it, and moves past it if it is taken. -/
theorem StandsAt.answer_of_byte (h : StandsAt place bytes failures i c) {b : Byte}
    {rest : List Item} (hi : c.items = .byte b :: rest) (call : Call) :
    ∃ c', c.answer call = (.ok (call.reply bytes i), c') ∧
      StandsAt place bytes failures (call.moves bytes i) c' := by
  obtain ⟨c', hpeek, hitems, hpass, hloc⟩ := peek_of_byte hi
  obtain ⟨hshow, htake, heat, hend⟩ := answer_of_some hpeek
  have hbytes : bytes.drop i = b :: Item.bytes rest := by
    rw [← h.rest, hi]
    rfl
  have hget : bytes[i]? = some b := by rw [← List.head?_drop, hbytes, List.head?_cons]
  have hlt : i < bytes.length := (List.getElem?_eq_some_iff.mp hget).1
  have hfailures : Item.failuresFrom (i + 1) rest = failures := by
    rw [← h.due, hi]
    rfl
  have hstay : StandsAt place bytes failures i c' :=
    ⟨h.counts, by rw [hitems, ← hi, h.rest], by rw [hitems, ← hi, h.due], h.le,
      hloc.trans h.location⟩
  have hmove : StandsAt place bytes failures (i + 1) (c'.pass b) := by
    refine ⟨h.counts, ?_, by rw [hpass, hfailures], hlt, ?_⟩
    · rw [hpass, ← List.drop_drop, hbytes]
      rfl
    · rw [location_pass, hloc, h.location, h.counts.advance hget]
  cases call with
  | peek =>
    rw [hshow, Call.reply, hget]
    exact ⟨c', rfl, hstay⟩
  | bump =>
    rw [htake, Call.reply, Call.moves, hget, if_pos hlt]
    exact ⟨c'.pass b, rfl, hmove⟩
  | eat expected =>
    rw [heat, Call.reply, Call.moves, hget]
    refine ⟨_, rfl, ?_⟩
    by_cases hb : b = expected
    · rw [if_pos hb, if_pos (congrArg some hb)]
      exact hmove
    · rw [if_neg hb, if_neg fun he => hb (Option.some.inj he)]
      exact hstay
  | atEnd =>
    rw [hend, Call.reply, decide_eq_false (Nat.ne_of_lt hlt)]
    exact ⟨c', rfl, hstay⟩

/-- At the end no call moves the index. -/
theorem StandsAt.answer_of_nil (h : StandsAt place bytes failures i c) (hi : c.items = [])
    (call : Call) :
    ∃ c', c.answer call = (.ok (call.reply bytes i), c') ∧
      StandsAt place bytes failures (call.moves bytes i) c' := by
  obtain ⟨c', hpeek, hitems, hloc⟩ := peek_of_nil hi
  have hbytes : bytes.drop i = [] := by
    rw [← h.rest, hi]
    rfl
  have hlength : i = bytes.length := Nat.le_antisymm h.le (List.drop_eq_nil_iff.mp hbytes)
  have hstay : StandsAt place bytes failures i c' :=
    ⟨h.counts, by rw [hitems, ← hi, h.rest], by rw [hitems, ← hi, h.due], h.le,
      hloc.trans h.location⟩
  refine ⟨c', ?_, ?_⟩
  · rw [answer_of_none hpeek]
    cases call <;> simp [Call.reply, hlength]
  · have hmoves : call.moves bytes i = i := by
      cases call <;> simp [Call.moves, hlength]
    rwa [hmoves]

/-- Before a failure every call reports it, and leaves the index where it is. -/
theorem StandsAt.answer_of_failure (h : StandsAt place bytes failures i c) {f : Failure}
    {rest : List Item} (hi : c.items = .failure f :: rest) (call : Call) :
    ∃ others c', failures = (i, f) :: others ∧ c.answer call = (.error f, c') ∧
      StandsAt place bytes others i c' := by
  obtain ⟨c', hpeek, hitems, hloc⟩ := peek_of_failure hi
  refine ⟨Item.failuresFrom i rest, c', ?_, answer_of_error hpeek call, ?_⟩
  · rw [← h.due, hi]
    rfl
  · refine ⟨h.counts, ?_, by rw [hitems], h.le, hloc.trans h.location⟩
    rw [hitems, ← h.rest, hi]
    rfl

/-- **One call**: it fails where a failure stands at the index, and is answered by the index where
none does. -/
theorem StandsAt.answer (h : StandsAt place bytes failures i c) (call : Call) :
    (∃ f others c', failures = (i, f) :: others ∧ c.answer call = (.error f, c') ∧
      StandsAt place bytes others i c') ∨
    (∀ f, failures.head? ≠ some (i, f)) ∧ ∃ c', c.answer call = (.ok (call.reply bytes i), c') ∧
      StandsAt place bytes failures (call.moves bytes i) c' := by
  rcases hi : c.items with _ | ⟨b | f, rest⟩
  · refine .inr ⟨?_, h.answer_of_nil hi call⟩
    rw [← h.due, hi]
    simp [Item.failuresFrom]
  · refine .inr ⟨?_, h.answer_of_byte hi call⟩
    -- the failures behind the byte have higher indices
    intro f hf
    rw [← h.due, hi] at hf
    have hmem : (i, f) ∈ Item.failuresFrom (i + 1) rest := List.mem_of_head? hf
    exact absurd (Item.le_of_mem_failuresFrom hmem) (Nat.not_succ_le_self i)
  · obtain ⟨others, c', hfailures, hc, hstands⟩ := h.answer_of_failure hi call
    exact .inl ⟨f, others, c', hfailures, hc, hstands⟩

/-- **Calls in a row** are told by the index. -/
theorem StandsAt.follows (h : StandsAt place bytes failures i c) (calls : List Call) :
    Follows place bytes failures i calls (c.answers calls) := by
  induction calls generalizing failures i c with
  | nil => exact .nil
  | cons call calls ih =>
    rcases h.answer call with ⟨f, others, c', rfl, hc, hstands⟩ | ⟨hnone, c', hc, hstands⟩
    · rw [answers, hc]
      simp only [hstands.location]
      exact .failed (ih hstands)
    · rw [answers, hc]
      simp only [hstands.location]
      exact .answered hnone (ih hstands)

/-! ## Without the failures -/

/-- The calls that did not fail are answered as if there had been no others. -/
theorem Follows.kept_eq {calls : List Call} {answers : List (Except Failure Reply × Location)}
    (h : Follows place bytes failures i calls answers) :
    (kept calls answers).map Prod.snd =
      indexed place bytes i ((kept calls answers).map Prod.fst) := by
  induction h with
  | nil => rfl
  | failed _ ih => exact ih
  | answered _ _ ih => simp only [kept, List.map_cons, indexed, ih]

/-- Where there are no failures, all calls are answered by the index. -/
theorem Follows.eq_indexed {calls : List Call} {answers : List (Except Failure Reply × Location)}
    (h : Follows place bytes failures i calls answers) (hnone : failures = []) :
    answers = (indexed place bytes i calls).map fun (reply, l) => (.ok reply, l) := by
  induction h with
  | nil => rfl
  | failed => cases hnone
  | answered _ _ ih => simp only [indexed, List.map_cons, ih hnone]

end Cursor

theorem Item.failuresFrom_ofBytes (i : Nat) (bytes : List Byte) :
    failuresFrom i (ofBytes bytes) = [] := by
  induction bytes generalizing i with
  | nil => rfl
  | cons b bytes ih => exact ih (i + 1)

theorem Input.failures_ofBytes (bytes : List Byte) : (ofBytes bytes).failures = [] := by
  rw [Input.failures, delivers_ofBytes bytes, Item.failuresFrom_ofBytes]

namespace Cursor

variable {place : Nat → Location} {bytes : List Byte} {failures : List (Nat × Failure)} {i : Nat}
  {c : Cursor}

/-- A source that delivers the bytes at once gives the answers of the index. -/
theorem answers_ofBytes (hplace : Counts bytes place) (calls : List Call) :
    (start (.ofBytes bytes)).answers calls =
      (indexed place bytes 0 calls).map fun (reply, l) => (.ok reply, l) := by
  have hbytes : (Input.ofBytes bytes).bytes = bytes := (Input.delivers_ofBytes bytes).bytes_eq
  have hstart := standsAt_start (hbytes.symm ▸ hplace)
  rw [hbytes, Input.failures_ofBytes] at hstart
  exact (hstart.follows calls).eq_indexed rfl

/-! ## The main statement -/

/-- The cursor behind a sequence of calls. -/
def behind (c : Cursor) (calls : List Call) : Cursor :=
  calls.foldl (fun c call => (c.answer call).2) c

theorem StandsAt.behind (h : StandsAt place bytes failures i c) (calls : List Call) :
    ∃ failures' i', StandsAt place bytes failures' i' (c.behind calls) := by
  induction calls generalizing failures i c with
  | nil => exact ⟨failures, i, h⟩
  | cons call calls ih =>
    have hbehind : c.behind (call :: calls) = (c.answer call).2.behind calls := rfl
    rw [hbehind]
    rcases h.answer call with ⟨f, others, c', -, hc, hstands⟩ | ⟨-, c', hc, hstands⟩
    · rw [hc]
      exact ih hstands
    · rw [hc]
      exact ih hstands

/-- A call that fails changes neither the place nor the bytes to come. -/
theorem StandsAt.kept_of_error (h : StandsAt place bytes failures i c) {call : Call} {f : Failure}
    (he : (c.answer call).1 = .error f) :
    (c.answer call).2.location = c.location ∧
      Item.bytes (c.answer call).2.items = Item.bytes c.items := by
  rcases h.answer call with ⟨f, others, c', -, hc, hstands⟩ | ⟨-, c', hc, -⟩
  · rw [hc]
    exact ⟨hstands.location.trans h.location.symm, hstands.rest.trans h.rest.symm⟩
  · rw [hc] at he
    cases he

/-- The answers of a cursor to some calls are those of an index, which has these places. -/
structure TellsIndex (place : Nat → Location) (input : Input) (calls : List Call) : Prop where
  /-- the calls that do not fail are answered as if there were no others -/
  kept : (kept calls ((start input).answers calls)).map Prod.snd =
    indexed place input.bytes 0 ((kept calls ((start input).answers calls)).map Prod.fst)
  /-- the others fail where failures stand -/
  follows : Follows place input.bytes input.failures 0 calls ((start input).answers calls)

theorem tellsIndex {input : Input} (hplace : Counts input.bytes place) (calls : List Call) :
    TellsIndex place input calls :=
  have hfollows := (standsAt_start hplace).follows calls
  ⟨hfollows.kept_eq, hfollows⟩

/-- **A cursor is an index into its bytes.** A call that fails leaves the place and the bytes to
come as they are. The others are answered as they are on a source of the same bytes without failures:
they are answered, and leave the cursor, as the index has it, at the place that the bytes before the
index make, counted up to the limit. Among fewer bytes than the limit, it does not show. Which calls
fail is a matter of where the failures stand. -/
theorem answers_follow (input : Input) (calls : List Call) :
    let c := (start input).behind calls
    let answers := (start input).answers calls
    (∀ call f, (c.answer call).1 = .error f →
      (c.answer call).2.location = c.location ∧
        Item.bytes (c.answer call).2.items = Item.bytes c.items) ∧
      (start (.ofBytes input.bytes)).answers ((kept calls answers).map Prod.fst) =
        (kept calls answers).map (fun (_, reply, l) => (.ok reply, l)) ∧
      (input.bytes.length < Location.limit → TellsIndex (placeAt input.bytes) input calls) ∧
      TellsIndex (fun i => (placeAt input.bytes i).counted) input calls := by
  intro c answers
  have hcounts := counts_counted input.bytes
  have htells := tellsIndex hcounts calls
  obtain ⟨failures, i, hbehind⟩ := (standsAt_start hcounts).behind calls
  refine ⟨fun _ _ => hbehind.kept_of_error, ?_, ?_, htells⟩
  · rw [answers_ofBytes hcounts, ← htells.kept, List.map_map]
    rfl
  · intro hlt
    exact tellsIndex (counts_placeAt hlt) calls

/-- `a`, a line feed and `b`, with a failure before the `b` and another one before the end. Behind
the end the source would deliver more. -/
def frailSource : Input :=
  ⟨[.data [0x61, 0x0a], .failure ⟨.timedOut, ""⟩, .data [0x62], .failure ⟨.brokenPipe, ""⟩, .data [],
    .data [0x63]]⟩

theorem answers_frailSource :
    let calls := [.eat 0x62, .bump, .bump, .peek, .eat 0x62, .atEnd, .atEnd, .bump]
    let c := (start frailSource).behind (calls.take 3)
    (c.answer .peek).1 = .error ⟨.timedOut, ""⟩ ∧ (c.answer .peek).2.location = ⟨2, 2, 1⟩ ∧
      (kept calls ((start frailSource).answers calls)).map Prod.snd =
        [(.flag false, ⟨0, 1, 1⟩), (.byte (some 0x61), ⟨1, 1, 2⟩), (.byte (some 0x0a), ⟨2, 2, 1⟩),
          (.flag true, ⟨3, 2, 2⟩), (.flag true, ⟨3, 2, 2⟩), (.byte none, ⟨3, 2, 2⟩)] := by
  intro calls c
  have hfails : (c.answer .peek).1 = .error ⟨.timedOut, ""⟩ := by decide
  have hplace : c.location = ⟨2, 2, 1⟩ := by decide
  have hstays := (answers_follow frailSource (calls.take 3)).1 .peek _ hfails
  have hkept := ((answers_follow frailSource calls).2.2.1 (by decide)).kept
  have hcalls : (kept calls ((start frailSource).answers calls)).map Prod.fst =
    [.eat 0x62, .bump, .bump, .eat 0x62, .atEnd, .bump] := by decide
  refine ⟨hfails, hstays.1.trans hplace, ?_⟩
  rw [hkept, hcalls]
  decide

/-! ## At the limit -/

/-- As long as there are bytes to take, the places behind them are those of the next indices. -/
theorem places_indexed_bumps (place : Nat → Location) {bytes : List Byte} {i k : Nat}
    (h : i + k ≤ bytes.length) :
    (indexed place bytes i (.replicate k .bump)).map Prod.snd =
      (List.range k).map fun j => place (i + j + 1) := by
  induction k generalizing i with
  | zero => rfl
  | succ k ih =>
    have hmoves : Call.bump.moves bytes i = i + 1 := if_pos (by omega)
    have hplaces := ih (i := i + 1) (by omega)
    rw [List.replicate_succ, indexed, hmoves, List.map_cons, hplaces, List.range_succ_eq_map,
      List.map_cons, List.map_map]
    simp [Nat.add_assoc, Nat.add_comm 1]

/-- Behind as many spaces as there are columns, the column is not counted any more. -/
theorem not_tellsIndex_of_limit {n : Nat} (hn : n = Location.limit) :
    ¬ TellsIndex (placeAt (spaces n)) (.ofBytes (spaces n)) (.replicate n .bump) := by
  intro h
  have hbytes : (Input.ofBytes (spaces n)).bytes = spaces n := (Input.delivers_ofBytes _).bytes_eq
  have hlength : (spaces n).length = n := List.length_replicate
  have hfollows := h.follows
  rw [hbytes, Input.failures_ofBytes] at hfollows
  have hexact := hfollows.eq_indexed rfl
  rw [answers_ofBytes (counts_counted (spaces n))] at hexact
  have hplaces := congrArg (List.map Prod.snd) hexact
  simp only [List.map_map, Function.comp_def] at hplaces
  rw [places_indexed_bumps _ (by omega), places_indexed_bumps _ (by omega)] at hplaces
  have hlast : (placeAt (spaces n) n).counted = placeAt (spaces n) n := by
    have hmem : n - 1 ∈ List.range n := by
      rw [List.mem_range, hn]
      decide
    have hpred : 0 + (n - 1) + 1 = n := by
      rw [hn]
      rfl
    have hat := List.map_inj_left.mp hplaces (n - 1) hmem
    rwa [hpred] at hat
  have hplace : placeAt (spaces n) n = ⟨n, 1, 1 + n⟩ := by
    rw [placeAt_eq (Nat.le_of_eq hlength.symm), List.take_of_length_le (Nat.le_of_eq hlength),
      Location.after_of_notMem (lineFeed_notMem_spaces n), hlength]
  rw [hplace] at hlast
  have hcolumn : min (1 + n) Location.limit = 1 + n := congrArg Location.column hlast
  omega

/-- 4294967295 spaces are fewer than 2 ^ 32 bytes, and too many for the column. -/
theorem not_tellsIndex_spaces :
    (Input.ofBytes (spaces 4294967295)).bytes.length < 4294967296 ∧
      ¬ TellsIndex (placeAt (spaces 4294967295)) (.ofBytes (spaces 4294967295))
        (.replicate 4294967295 .bump) := by
  have hlength : ∀ n, (Input.ofBytes (spaces n)).bytes.length = n := by
    intro n
    rw [(Input.delivers_ofBytes _).bytes_eq, spaces, List.length_replicate]
  refine ⟨?_, not_tellsIndex_of_limit rfl⟩
  rw [hlength]
  decide

end Cursor

end PageTokens
