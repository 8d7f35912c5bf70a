import PageTokens.Alphabet

/-!
# Sinks

Output goes to a sink as bytes, piece after piece. A sink may be limited: then it takes what it has
room for, a part of a piece if need be, and is full. A full sink ends the writing, and only that a
piece did not fit is noticed, so a piece that fills a sink to the brim is no trouble yet.
-/

namespace PageTokens

/-- A text as UTF-8. -/
def Text.utf8 (t : Text) : List Byte :=
  t.flatMap String.utf8EncodeChar

/-- A place for output, with the number of bytes that it has room for if it is limited. -/
structure Sink where
  /-- how many bytes it still takes; any number if `none` -/
  room : Option Nat
  deriving DecidableEq, Repr

namespace Sink

/-- A sink that takes everything. -/
def unlimited : Sink := ⟨none⟩

/-- What writing comes to: the bytes that were taken, and the sink for what follows, or `none` if it
is full and did not take everything. -/
structure Written where
  /-- what was taken -/
  taken : List Byte
  /-- the sink for more -/
  sink : Option Sink
  deriving DecidableEq, Repr

/-- Writes one piece. -/
def put (s : Sink) (piece : List Byte) : Written :=
  match s.room with
  | none => ⟨piece, some s⟩
  | some room =>
    if piece.length ≤ room then ⟨piece, some ⟨some (room - piece.length)⟩⟩
    else ⟨piece.take room, none⟩

/-- Writes pieces in order, up to the first that does not fit. -/
def putAll (s : Sink) : List (List Byte) → Written
  | [] => ⟨[], some s⟩
  | piece :: pieces =>
    match s.put piece with
    | ⟨taken, none⟩ => ⟨taken, none⟩
    | ⟨taken, some s⟩ =>
      let others := s.putAll pieces
      ⟨taken ++ others.taken, others.sink⟩

/-! ## How output is divided

Where one piece ends and the next begins makes no difference to what a sink takes.
-/

theorem put_nil (s : Sink) : s.put [] = ⟨[], some s⟩ := by
  obtain ⟨_ | room⟩ := s <;> rfl

/-- A piece may be written in two. -/
theorem put_append (s : Sink) (front back : List Byte) :
    s.put (front ++ back) =
      match s.put front with
      | ⟨taken, none⟩ => ⟨taken, none⟩
      | ⟨taken, some rest⟩ => ⟨taken ++ (rest.put back).taken, (rest.put back).sink⟩ := by
  obtain ⟨_ | room⟩ := s
  · rfl
  by_cases hfront : front.length ≤ room
  · have htake : (front ++ back).take room = front ++ back.take (room - front.length) := by
      rw [List.take_append, List.take_of_length_le hfront]
    by_cases hback : back.length ≤ room - front.length
    · have hboth : front.length + back.length ≤ room := by omega
      have hroom : room - (front.length + back.length) = room - front.length - back.length := by
        omega
      simp only [put, List.length_append, if_pos hfront, if_pos hback, if_pos hboth, hroom]
    · have hboth : ¬ front.length + back.length ≤ room := by omega
      simp only [put, List.length_append, if_pos hfront, if_neg hback, if_neg hboth, htake]
  · have hboth : ¬ front.length + back.length ≤ room := by omega
    have htake : (front ++ back).take room = front.take room :=
      List.take_append_of_le_length (Nat.le_of_not_le hfront)
    simp only [put, List.length_append, if_neg hfront, if_neg hboth, htake]

/-- Pieces are written as the whole that they make is. -/
theorem putAll_eq_put (s : Sink) (pieces : List (List Byte)) :
    s.putAll pieces = s.put pieces.flatten := by
  induction pieces generalizing s with
  | nil => exact (put_nil s).symm
  | cons piece pieces ih =>
    rw [putAll, List.flatten_cons, put_append]
    rcases s.put piece with ⟨taken, _ | rest⟩
    · rfl
    · simp only [ih]

end Sink

end PageTokens
