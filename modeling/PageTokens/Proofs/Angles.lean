import Mathlib.Data.List.Infix
import PageTokens.Proofs.Repertoire

/-!
# What a less-than sign opens

Three things begin with a `<`, and the character behind it decides which: a second `<` makes a
dictionary start of the two, a tilde begins a base-85 string, and anything else belongs to a hex
string. The two strings go on to the first place where their terminator occurs, `~>` or `>`, or to
the end of the input if it occurs nowhere. The opening tilde is no part of a terminator: what is
searched begins behind it.

A terminator is a text, and where it occurs is said of texts alone (`Text.FirstAt`). The grammar
asks of a string that its terminator is not within it, and the first place of the terminator is the
only place to end a string there (`Text.FirstAt.not_infix`). The main statement is `read_angle`.
-/

namespace PageTokens

/-! ## Where a text occurs in another -/

namespace Text

/-- A text occurs at a place of another. -/
def OccursAt (terminator t : Text) (i : Nat) : Prop := terminator <+: t.drop i

instance (terminator t : Text) (i : Nat) : Decidable (OccursAt terminator t i) :=
  inferInstanceAs (Decidable (_ <+: _))

/-- The first place where a text occurs in another. -/
structure FirstAt (terminator t : Text) (i : Nat) : Prop where
  /-- it occurs there -/
  occurs : OccursAt terminator t i
  /-- it does not occur before -/
  first : ∀ j < i, ¬ OccursAt terminator t j

variable {terminator t : Text} {i : Nat}

/-- The text up to the end of an occurrence. -/
theorem OccursAt.take_eq (h : OccursAt terminator t i) :
    t.take (i + terminator.length) = t.take i ++ terminator := by
  rw [List.take_add, ← List.prefix_iff_eq_take.mp h]

/-- What is within a text occurs at a place that leaves room for it. -/
theorem exists_occursAt (h : terminator <:+: t) :
    ∃ j, j + terminator.length ≤ t.length ∧ OccursAt terminator t j := by
  obtain ⟨front, behind, rfl⟩ := h
  refine ⟨front.length, by simp, behind, ?_⟩
  rw [List.append_assoc, List.drop_left]

/-- Before its first place a text does not occur at all. -/
theorem FirstAt.not_infix (h : FirstAt terminator t i) (hne : terminator ≠ []) :
    ¬ terminator <:+: t.take i := by
  intro hinfix
  obtain ⟨j, hj, hoccurs⟩ := exists_occursAt hinfix
  have hpos := List.length_pos_iff.mpr hne
  have hlength : (t.take i).length ≤ i := List.length_take_le ..
  have hprefix : (t.take i).drop j <+: t.drop j := by
    rw [List.drop_take]
    exact List.take_prefix ..
  exact h.first j (by omega) (hoccurs.trans hprefix)

end Text

/-! ## Hex strings that differ in white space -/

namespace Lexeme

/-- What is no white space in a hex string decides about its value. -/
theorem hexValue_congr {b b' : Text}
    (h : (b.filter fun c => !isWhite c) = b'.filter fun c => !isWhite c) :
    hexValue b = hexValue b' := by
  simp only [hexValue, h]

/-- What begins a text that begins neither of the other two is a hex body, up to the first `>`. -/
theorem hexBody_of_front {v t : Text} (hv : v <+: t) (hd : t.head? ≠ some '<')
    (hb : t.head? ≠ some '~') (hg : ¬ ['>'] <:+: v) : HexBody v := by
  have hhead : ∀ c, v.head? = some c → t.head? = some c := by
    intro c hc
    obtain ⟨w, rfl⟩ := List.head?_eq_some_iff.mp hc
    obtain ⟨u, rfl⟩ := hv
    rfl
  exact ⟨fun h => hg ((List.singleton_infix_iff _ _).mpr h), fun h => hd (hhead _ h),
    fun h => hb (hhead _ h)⟩

end Lexeme

/-- What does not begin with a byte does not begin with its character. -/
theorem Byte.head?_text_ne {bytes : List Byte} {b : Byte} (h : bytes.head? ≠ some b) :
    (Byte.text bytes).head? ≠ some b.char := by
  intro hhead
  obtain ⟨c, hc, hchar⟩ := Option.map_eq_some_iff.mp (List.head?_map.symm.trans hhead)
  exact h (hc.trans (congrArg some (Byte.char_injective hchar)))

open Lexeme Text

/-! ## Scanners before a less-than sign -/

namespace Scanner

/-- A scanner stands before a gap and a `<`, and these bytes are all that follows. -/
structure BeforeAngle (s : Scanner) (gap behind : List Byte) : Prop where
  /-- what stands before it -/
  items : s.cursor.items = Item.ofBytes (gap ++ 0x3c :: behind)
  /-- the gap before the sign -/
  fills : Gap.Fills (Byte.text gap) (Byte.text (0x3c :: behind))

/-- A scanner stands before a hex string with this body, which a `>` ends or the end of the input.
-/
def BeforeHex (s : Scanner) (gap body : List Byte) : Prop :=
  HexBody (Byte.text body) ∧
    (s.BeforeAngle gap body ∨ ∃ rest, s.BeforeAngle gap (body ++ 0x3e :: rest))

/-- A read goes on to the first place of a terminator and ends right behind it, or takes all that is
left if there is no such place. The token is that of the text before that place. -/
structure ReadsUpTo (s : Scanner) (gap opening string : List Byte) (terminator : Text)
    (token : Text → Token) : Prop where
  /-- the first terminator ends the token -/
  closed : ∀ i, FirstAt terminator (Byte.text string) i →
    s.ReadsPiece ⟨gap, opening ++ string.take (i + terminator.length),
      token (Byte.text (string.take i))⟩ (Item.ofBytes (string.drop (i + terminator.length)))
  /-- without a terminator the end of the input does -/
  unclosed : (∀ i, ¬ OccursAt terminator (Byte.text string) i) →
    s.ReadsPiece ⟨gap, opening ++ string, token (Byte.text string)⟩ []

variable {s s' : Scanner} {gap gap' behind opening string body body' : List Byte}

/-- A scanner reads the lexeme that stands behind its gap. -/
theorem BeforeAngle.readsPiece (h : s.BeforeAngle gap behind) {lexeme rest : List Byte} {t : Token}
    (hbytes : 0x3c :: behind = lexeme ++ rest)
    (hl : Spells (Byte.text lexeme) (Byte.text rest).head? t) :
    s.ReadsPiece ⟨gap, lexeme, t⟩ (Item.ofBytes rest) := by
  obtain ⟨hitems, hfills⟩ := h
  rw [hbytes] at hitems hfills
  refine readsPiece_of_fits ⟨hfills, hl⟩ ?_
  rw [hitems, Piece.bytes, List.append_assoc]

/-- A string is read up to its terminator if every text without one in it is the text of a string,
with a terminator behind it or with the end of the input. -/
theorem BeforeAngle.readsUpTo (h : s.BeforeAngle gap behind) {terminator : Text}
    {token : Text → Token} (hbytes : 0x3c :: behind = opening ++ string) (hne : terminator ≠ [])
    (hclosed : ∀ v, v <+: Byte.text string → ¬ terminator <:+: v →
      Closed (Byte.text opening ++ v ++ terminator) (token v))
    (hopen : ¬ terminator <:+: Byte.text string →
      Open (Byte.text opening ++ Byte.text string) none (token (Byte.text string))) :
    s.ReadsUpTo gap opening string terminator token := by
  have htake : ∀ i, Byte.text (string.take i) = (Byte.text string).take i :=
    fun i => List.map_take
  refine ⟨?_, ?_⟩
  · intro i hi
    refine h.readsPiece (by rw [hbytes, List.append_assoc, List.take_append_drop]) (.inl ?_)
    rw [Byte.text_append, htake, htake, hi.occurs.take_eq, ← List.append_assoc]
    exact hclosed _ (List.take_prefix ..) (hi.not_infix hne)
  · intro hnone
    refine h.readsPiece (by rw [hbytes, List.append_nil]) (.inr ?_)
    rw [Byte.text_append]
    refine hopen fun hinfix => ?_
    obtain ⟨i, -, hi⟩ := exists_occursAt hinfix
    exact hnone i hi

/-- A hex string is read as the value of its body, however it ends. -/
theorem BeforeHex.answer (h : s.BeforeHex gap body) :
    s.read.answer = .token ⟨.string .hex, hexValue (Byte.text body)⟩ := by
  obtain ⟨hbody, hopen | ⟨rest, hclosed⟩⟩ := h
  · have hbytes : 0x3c :: body = 0x3c :: body ++ [] := (List.append_nil _).symm
    exact (hopen.readsPiece hbytes (.inr (.hex hbody))).answer
  · have hbytes : 0x3c :: (body ++ 0x3e :: rest) = (0x3c :: body ++ [0x3e]) ++ rest := by simp
    have hspells : Closed (Byte.text (0x3c :: body ++ [0x3e]))
        ⟨.string .hex, hexValue (Byte.text body)⟩ := by
      rw [Byte.text_append]
      exact .hex hbody
    exact (hclosed.readsPiece hbytes (.inl hspells)).answer

/-- Hex strings that differ in white space are the same token. -/
theorem BeforeHex.answer_congr (h : s.BeforeHex gap body) (h' : s'.BeforeHex gap' body')
    (hb : ((Byte.text body').filter fun c => !isWhite c) =
      (Byte.text body).filter fun c => !isWhite c) :
    s'.read.answer = s.read.answer := by
  rw [h.answer, h'.answer, hexValue_congr hb]

/-- The value of a hex string has an even number of characters. -/
theorem even_of_hex {v : Text} (h : s.read.answer = .token ⟨.string .hex, v⟩) :
    v.length % 2 = 0 := by
  cases wellFormed_of_answer h with
  | hex hlength => exact hlength

end Scanner

/-! ## The main statement -/

open Scanner

/-- **What a `<` opens goes on to the first place of its own terminator.** A second `<` makes a
dictionary start, and the two are all of it. A tilde begins a base-85 string, up to the first `~>`
behind that tilde. Anything else belongs to a hex string, up to the first `>`. Of a hex string only
what is no white space matters, and its value has an even length. -/
theorem read_angle {s : Scanner} {gap behind : List Byte} (h : s.BeforeAngle gap behind) :
    (∀ u, behind = 0x3c :: u →
      s.ReadsPiece ⟨gap, [0x3c, 0x3c], .ofMark .dictionaryStart⟩ (Item.ofBytes u)) ∧
    (∀ u, behind = 0x7e :: u →
      s.ReadsUpTo gap [0x3c, 0x7e] u base85End fun v => ⟨.string .base85, v⟩) ∧
    (behind.head? ≠ some 0x3c → behind.head? ≠ some 0x7e →
      s.ReadsUpTo gap [0x3c] behind ['>'] fun b => ⟨.string .hex, hexValue b⟩) ∧
    (∀ body, s.BeforeHex gap body → ∀ (s' : Scanner) (gap' body' : List Byte),
      s'.BeforeHex gap' body' →
      ((Byte.text body').filter fun c => !isWhite c) =
        (Byte.text body).filter (fun c => !isWhite c) →
      s'.read.answer = s.read.answer) ∧
    ∀ v, s.read.answer = .token ⟨.string .hex, v⟩ → v.length % 2 = 0 := by
  refine ⟨?_, ?_, ?_, ?_, ?_⟩
  · rintro u rfl
    exact h.readsPiece rfl (.inl (.mark .dictionaryStart))
  · rintro u rfl
    exact h.readsUpTo rfl (by decide) (fun v _ hv => .base85 hv) fun hu => .base85 hu
  · intro hd hb
    have hd : (Byte.text behind).head? ≠ some '<' := Byte.head?_text_ne hd
    have hb : (Byte.text behind).head? ≠ some '~' := Byte.head?_text_ne hb
    exact h.readsUpTo rfl (by decide) (fun v hv hg => .hex (hexBody_of_front hv hd hb hg))
      fun hg => .hex (hexBody_of_front (List.prefix_refl _) hd hb hg)
  · intro body hbody s' gap' body' hbody' hsame
    exact hbody.answer_congr hbody' hsame
  · intro v hv
    exact even_of_hex hv

/-- `<~~~>>`, in which the second tilde is text and the third belongs to the terminator, `<~>`,
in which the opening tilde belongs to none, and ` < 4\n15>`, of which the value is `4150`. -/
theorem read_angle_tildes :
    (start (.ofBytes [0x3c, 0x7e, 0x7e, 0x7e, 0x3e, 0x3e])).ReadsPiece
        ⟨[], [0x3c, 0x7e, 0x7e, 0x7e, 0x3e], ⟨.string .base85, ['~']⟩⟩ [.byte 0x3e] ∧
      (start (.ofBytes [0x3c, 0x7e, 0x3e])).ReadsPiece
        ⟨[], [0x3c, 0x7e, 0x3e], ⟨.string .base85, ['>']⟩⟩ [] ∧
      (start (.ofBytes [0x20, 0x3c, 0x20, 0x34, 0x0a, 0x31, 0x35, 0x3e])).ReadsPiece
        ⟨[0x20], [0x3c, 0x20, 0x34, 0x0a, 0x31, 0x35, 0x3e],
          ⟨.string .hex, ['4', '1', '5', '0']⟩⟩ [] := by
  have htildes : (start (.ofBytes [0x3c, 0x7e, 0x7e, 0x7e, 0x3e, 0x3e])).BeforeAngle []
      [0x7e, 0x7e, 0x7e, 0x3e, 0x3e] := ⟨rfl, .nil⟩
  have htilde : (start (.ofBytes [0x3c, 0x7e, 0x3e])).BeforeAngle [] [0x7e, 0x3e] := ⟨rfl, .nil⟩
  have hhex : (start (.ofBytes [0x20, 0x3c, 0x20, 0x34, 0x0a, 0x31, 0x35, 0x3e])).BeforeAngle [0x20]
      [0x20, 0x34, 0x0a, 0x31, 0x35, 0x3e] := ⟨rfl, .white rfl .nil⟩
  refine ⟨?_, ?_, ?_⟩
  · exact ((read_angle htildes).2.1 _ rfl).closed 1 ⟨by decide, by decide⟩
  · refine ((read_angle htilde).2.1 _ rfl).unclosed ?_
    rintro (_ | i)
    · decide
    · simp [OccursAt, base85End]
  · exact ((read_angle hhex).2.2.1 (by decide) (by decide)).closed 5 ⟨by decide, by decide⟩

end PageTokens
