import PageTokens.Dump
import PageTokens.Proofs.Printing

/-!
# Lines of output

Output is text as UTF-8, written line by line, and whoever reads it finds the lines by their line
feeds. Two things are needed for the lines to be found again: the bytes of UTF-8 are a line feed
only where the text has one (`Text.count_utf8`), and the line of a record has none in it
(`Record.lineFeed_not_mem_line`), since no rendered token shows a control character as such.
-/

namespace PageTokens

/-! ## UTF-8 -/

/-- The bytes of UTF-8 that are not ASCII are sums like this. -/
theorem le_toNat_ofNat_mod {k base : Nat} (hk : 0 < k) (hb : 0x80 ≤ base) (hsum : k + base ≤ 0x100)
    (n : Nat) : 0x80 ≤ (UInt8.ofNat (n % k + base)).toNat := by
  have hlt := Nat.mod_lt n hk
  rw [UInt8.toNat_ofNat', Nat.mod_eq_of_lt (by omega)]
  omega

/-- A character of ASCII is written as its code, and of any other every byte is beyond ASCII. -/
theorem utf8EncodeChar_cases (c : Char) :
    c.toNat < 0x80 ∧ String.utf8EncodeChar c = [UInt8.ofNat c.toNat] ∨
      0x80 ≤ c.toNat ∧ ∀ b ∈ String.utf8EncodeChar c, 0x80 ≤ b.toNat := by
  by_cases hc : c.toNat < 0x80
  · exact .inl ⟨hc, if_pos (Nat.le_of_lt_succ hc)⟩
  · refine .inr ⟨Nat.le_of_not_lt hc, ?_⟩
    have hascii : ¬ c.val.toNat ≤ 0x7f := fun h => hc (Nat.lt_succ_of_le h)
    simp only [String.utf8EncodeChar, if_neg hascii]
    split
    · simp only [List.forall_mem_cons, List.not_mem_nil, false_implies, implies_true, and_true,
        le_toNat_ofNat_mod, Nat.reduceLT, Nat.reduceLeDiff, Nat.reduceAdd, Nat.le_refl]
    · split <;>
        simp only [List.forall_mem_cons, List.not_mem_nil, false_implies, implies_true, and_true,
          le_toNat_ofNat_mod, Nat.reduceLT, Nat.reduceLeDiff, Nat.reduceAdd, Nat.le_refl]

theorem count_utf8EncodeChar (c : Char) :
    (String.utf8EncodeChar c).count 0x0a = [c].count '\n' := by
  rcases utf8EncodeChar_cases c with ⟨hlt, he⟩ | ⟨hge, hb⟩
  · have hiff : UInt8.ofNat c.toNat = 0x0a ↔ c = '\n' := by
      rw [← UInt8.toNat_inj, UInt8.toNat_ofNat', Nat.mod_eq_of_lt (by omega), ← Char.toNat_inj]
      rfl
    simp only [he, List.count_singleton, beq_iff_eq, hiff]
  · rw [List.count_eq_zero.mpr, List.count_eq_zero.mpr]
    · intro hmem
      obtain rfl := List.mem_singleton.mp hmem
      exact absurd hge (by decide)
    · intro hmem
      exact absurd (hb _ hmem) (by decide)

namespace Text

theorem utf8_append (t u : Text) : utf8 (t ++ u) = utf8 t ++ utf8 u :=
  List.flatMap_append

/-- Nothing is lost in writing. -/
theorem utf8_injective {t u : Text} (h : utf8 t = utf8 u) : t = u := by
  have hb : List.utf8Encode t = List.utf8Encode u := congrArg List.toByteArray h
  have hd := congrArg ByteArray.utf8Decode? hb
  rw [List.utf8Decode?_utf8Encode, List.utf8Decode?_utf8Encode] at hd
  exact congrArg Array.toList (Option.some.inj hd)

/-- The line feeds of a text are all the bytes of that value. -/
theorem count_utf8 (t : Text) : (utf8 t).count 0x0a = t.count '\n' := by
  induction t with
  | nil => rfl
  | cons c t ih =>
    have hsplit : (c :: t).count '\n' = [c].count '\n' + t.count '\n' := by
      rw [← List.count_append, List.singleton_append]
    rw [utf8, List.flatMap_cons, List.count_append, count_utf8EncodeChar, hsplit]
    exact congrArg (_ + ·) ih

end Text

/-! ## Lines -/

/-- Lines, each with its end. -/
def unlines (lines : List Text) : Text := lines.flatMap (· ++ ['\n'])

/-- Lines can be told from what they make, if no line has an end within it. -/
theorem unlines_injective {ts us : List Text} (ht : ∀ t ∈ ts, '\n' ∉ t) (hu : ∀ u ∈ us, '\n' ∉ u)
    (h : unlines ts = unlines us) : ts = us := by
  induction ts generalizing us with
  | nil =>
    cases us with
    | nil => rfl
    | cons u us => simp [unlines] at h
  | cons t ts ih =>
    cases us with
    | nil => simp [unlines] at h
    | cons u us =>
      obtain ⟨ht, hts⟩ := List.forall_mem_cons.mp ht
      obtain ⟨hu, hus⟩ := List.forall_mem_cons.mp hu
      simp only [unlines, List.flatMap_cons, List.append_assoc, List.singleton_append] at h
      obtain ⟨rfl, hrest⟩ := append_sep_inj ht hu h
      rw [ih hts hus hrest]

/-! ## Records -/

theorem Kind.plain_label (k : Kind) : Plain k.label.toList := by
  rcases k with _ | ⟨_ | _ | _⟩ | ⟨_ | _ | _⟩ | _ | _ | ⟨_ | _ | _ | _ | _ | _⟩
  all_goals exact plain_of_all rfl

/-- A kind can be told from its name, but for the form of a string. -/
theorem Kind.eq_of_label {k k' : Kind} (h : k.label = k'.label) :
    k = k' ∨ ∃ form form', k = .string form ∧ k' = .string form' := by
  rcases k with _ | ⟨_ | _ | _⟩ | form | _ | _ | ⟨_ | _ | _ | _ | _ | _⟩ <;>
    rcases k' with _ | ⟨_ | _ | _⟩ | form' | _ | _ | ⟨_ | _ | _ | _ | _ | _⟩ <;>
    first
    | exact .inl rfl
    | exact .inr ⟨_, _, rfl, rfl⟩
    | exact absurd h (by simp [label])

theorem lineFeed_not_mem_placeText (place : Option Location) : '\n' ∉ Record.placeText place := by
  cases place with
  | none => exact List.not_mem_nil
  | some l =>
    have hdigits : ∀ n, '\n' ∉ Nat.toDigits 10 n := by
      intro n
      exact (plain_toDigits (by decide) (by decide) n).lineFeed_not_mem
    simp [Record.placeText, hdigits]

/-- The line of a record is one line. -/
theorem Record.lineFeed_not_mem_line (r : Record) : '\n' ∉ r.line := by
  have hplace := lineFeed_not_mem_placeText r.place
  have hlabel := (Kind.plain_label r.token.kind).lineFeed_not_mem
  have hrender := r.token.plain_render.lineFeed_not_mem
  simp [Record.line, hplace, hlabel, hrender]

/-- A dump as text is made of the lines of its records. -/
theorem Dump.flatten_lines (records : List Record) :
    (Dump.lines records).flatten = Text.utf8 (unlines (records.map Record.line)) := by
  induction records with
  | nil => rfl
  | cons r records ih =>
    rw [lines, List.map_cons, List.flatten_cons, ← lines, ih, ← Text.utf8_append]
    rfl

/-- **A dump as text has a line for each record.** -/
theorem Dump.count_lines (records : List Record) :
    (Dump.lines records).flatten.count 0x0a = records.length := by
  induction records with
  | nil => rfl
  | cons r records ih =>
    have hline : (r.line ++ ['\n']).count '\n' = 1 := by
      rw [List.count_append, List.count_eq_zero.mpr r.lineFeed_not_mem_line]
      rfl
    rw [Dump.lines, List.map_cons, List.flatten_cons, List.count_append,
      Text.count_utf8, hline]
    rw [Dump.lines] at ih
    rw [ih, List.length_cons, Nat.add_comm]

end PageTokens
