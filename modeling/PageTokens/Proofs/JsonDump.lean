import PageTokens.Proofs.TextDump

/-!
# What a dump tells as JSON

As JSON, nothing of a token is lost: records can be read back from a dump, although the values in
them may have any characters in them, those of JSON too. The main statement is `dump_json`.

No reader of JSON is needed for that, except of one character of a string (`Json.readChar`). From
there on, whatever is written within a list is `Json.Delimited`: what stands behind it shows that it
has ended, so of two texts that are the same the first things are the same, and what follows is.
-/

namespace PageTokens

namespace Json

/-! ## Strings -/

/-- The value of a digit of a code in an escape. -/
def digitValue (c : Char) : Nat :=
  if c.isDigit then c.toNat - '0'.toNat else c.toNat - 'a'.toNat + 10

/-- The character that is escaped behind a backslash, and what follows. Codes are those of control
characters, which have two digits at most. -/
def readEscape : Text → Option (Char × Text)
  | 'u' :: _ :: _ :: a :: b :: t => some (Char.ofNat (16 * digitValue a + digitValue b), t)
  | 'b' :: t => some ('\x08', t)
  | 't' :: t => some ('\t', t)
  | 'n' :: t => some ('\n', t)
  | 'f' :: t => some ('\x0c', t)
  | 'r' :: t => some ('\r', t)
  | c :: t => some (c, t)
  | [] => none

/-- The first character of what is left of a string, and what follows. There is none before the
quote that ends the string. -/
def readChar : Text → Option (Char × Text)
  | c :: t => if c = '"' then none else if c = '\\' then readEscape t else some (c, t)
  | [] => none

/-- The code of a control character can be read. -/
theorem digits_code : ∀ n < 0x20,
    List.leftpad 4 '0' (Nat.toDigits 16 n) =
        ['0', '0', Nat.digitChar (n / 16), Nat.digitChar (n % 16)] ∧
      16 * digitValue (Nat.digitChar (n / 16)) + digitValue (Nat.digitChar (n % 16)) = n := by
  decide

/-- Every character of a string can be read. -/
theorem readChar_escapeChar (c : Char) (t : Text) : readChar (escapeChar c ++ t) = some (c, t) := by
  unfold escapeChar
  repeat' split
  -- what is escaped by one character behind the backslash
  iterate 7
    next hc =>
      subst hc
      rfl
  · next hlow =>
    obtain ⟨hdigits, hvalue⟩ := digits_code c.toNat hlow
    rw [hdigits]
    simp [readChar, readEscape, hvalue, Char.ofNat_toNat]
  · simp [readChar, *]

theorem escapeChar_append_inj {c d : Char} {x y : Text}
    (h : escapeChar c ++ x = escapeChar d ++ y) : c = d ∧ x = y := by
  have hread := congrArg readChar h
  rw [readChar_escapeChar, readChar_escapeChar] at hread
  exact Prod.mk.inj (Option.some.inj hread)

/-- What is escaped is not the end of a string. -/
theorem escapeChar_append_ne (c : Char) (x y : Text) : escapeChar c ++ x ≠ '"' :: y := by
  intro h
  have hread := congrArg readChar h
  rw [readChar_escapeChar] at hread
  cases hread

/-- A string can be told from what stands behind it. -/
theorem quote_append_inj {t u x y : Text} (h : quote t ++ x = quote u ++ y) : t = u ∧ x = y := by
  simp only [quote, List.cons_append, List.append_assoc, List.nil_append, List.cons.injEq,
    true_and] at h
  induction t generalizing u with
  | nil =>
    cases u with
    | nil => exact ⟨rfl, (List.cons.inj h).2⟩
    | cons d u =>
      rw [List.flatMap_cons, List.append_assoc] at h
      exact absurd h.symm (escapeChar_append_ne _ _ _)
  | cons c t ih =>
    cases u with
    | nil =>
      rw [List.flatMap_cons, List.append_assoc] at h
      exact absurd h (escapeChar_append_ne _ _ _)
    | cons d u =>
      rw [List.flatMap_cons, List.flatMap_cons, List.append_assoc, List.append_assoc] at h
      obtain ⟨rfl, hbehind⟩ := escapeChar_append_inj h
      obtain ⟨rfl, hrest⟩ := ih hbehind
      exact ⟨rfl, hrest⟩

/-! ## Things in a row -/

/-- What is written can be told from what stands behind it, if that begins with no digit. -/
def Delimited {α : Type} (write : α → Text) : Prop :=
  ∀ ⦃a b : α⦄ ⦃c d : Char⦄ ⦃x y : Text⦄, c.isDigit = false → d.isDigit = false →
    write a ++ c :: x = write b ++ d :: y → a = b ∧ c :: x = d :: y

/-- Digits are not taken for a string. -/
theorem toDigits_append_ne_quote (n : Nat) (t x y : Text) :
    Nat.toDigits 10 n ++ x ≠ quote t ++ y := by
  intro h
  have hpos : 0 < (Nat.toDigits 10 n).length := Nat.length_toDigits_pos
  obtain ⟨e, digits, hdigits⟩ := List.exists_cons_of_length_pos hpos
  have hdigit : e.isDigit = true :=
    Nat.isDigit_of_mem_toDigits (by decide) (by decide) (hdigits ▸ List.mem_cons_self ..)
  rw [hdigits] at h
  obtain rfl : e = '"' := (List.cons.inj h).1
  exact absurd hdigit (by decide)

theorem delimited_value : Delimited Value.write := by
  intro v w c d x y hc hd h
  cases v with
  | text t =>
    cases w with
    | text u =>
      obtain ⟨rfl, hrest⟩ := quote_append_inj h
      exact ⟨rfl, hrest⟩
    | number n => exact absurd h.symm (toDigits_append_ne_quote n t _ _)
  | number m =>
    cases w with
    | text u => exact absurd h (toDigits_append_ne_quote m u _ _)
    | number n =>
      obtain ⟨rfl, hcd, hxy⟩ := toDigits_append_inj hc hd h
      rw [hcd, hxy]
      exact ⟨rfl, rfl⟩

theorem delimited_field : Delimited Field.pretty := by
  rintro ⟨key, value⟩ ⟨key', value'⟩ c d x y hc hd h
  simp only [Field.pretty, List.append_assoc, List.cons_append] at h
  obtain ⟨rfl, hbehind⟩ := quote_append_inj (List.append_cancel_left h)
  simp only [List.cons.injEq, true_and] at hbehind
  obtain ⟨rfl, hrest⟩ := delimited_value hc hd hbehind
  exact ⟨rfl, hrest⟩

section Separated

variable {α : Type} {write : α → Text} {comma stop : Char} {space : Text}

/-- What stands behind a piece of several: other pieces, or what stops them all. -/
def behind (comma stop : Char) (space : Text) (others : List Text) (x : Text) : Text :=
  match others with
  | [] => stop :: x
  | others => comma :: (space ++ separated (comma :: space) others ++ stop :: x)

theorem separated_cons_append (piece : Text) (others : List Text) (x : Text) :
    separated (comma :: space) (piece :: others) ++ stop :: x =
      piece ++ behind comma stop space others x := by
  cases others <;> simp [separated, behind]

/-- What stands behind a piece begins with no digit. -/
theorem exists_behind (hcomma : comma.isDigit = false) (hstop : stop.isDigit = false)
    (others : List Text) (x : Text) :
    ∃ c rest, behind comma stop space others x = c :: rest ∧ c.isDigit = false := by
  cases others with
  | nil => exact ⟨_, _, rfl, hstop⟩
  | cons => exact ⟨_, _, rfl, hcomma⟩

/-- Things in a row can be told from what stands behind them, if each can and does not begin like
what stops them. -/
theorem separated_append_inj (hcomma : comma.isDigit = false) (hstop : stop.isDigit = false)
    (hne : comma ≠ stop) (hw : Delimited write) (hbegin : ∀ a x y, write a ++ x ≠ stop :: y)
    {as bs : List α} {x y : Text}
    (h : separated (comma :: space) (as.map write) ++ stop :: x =
      separated (comma :: space) (bs.map write) ++ stop :: y) : as = bs ∧ x = y := by
  have hends : ∀ a as x y,
      stop :: x ≠ separated (comma :: space) ((a :: as).map write) ++ stop :: y := by
    intro a as x y h
    rw [List.map_cons, separated_cons_append] at h
    exact hbegin _ _ _ h.symm
  induction as generalizing bs with
  | nil =>
    cases bs with
    | nil => exact ⟨rfl, (List.cons.inj h).2⟩
    | cons b bs => exact absurd h (hends b bs x y)
  | cons a as ih =>
    cases bs with
    | nil => exact absurd h.symm (hends a as y x)
    | cons b bs =>
      rw [List.map_cons, List.map_cons, separated_cons_append, separated_cons_append] at h
      obtain ⟨c, rest, hc, hdigit⟩ := exists_behind hcomma hstop (as.map write) x
      obtain ⟨d, rest', hd, hdigit'⟩ := exists_behind hcomma hstop (bs.map write) y
      rw [hc, hd] at h
      obtain ⟨rfl, hbehind⟩ := hw hdigit hdigit' h
      rw [← hc, ← hd] at hbehind
      -- both rows end here, or both go on
      cases as with
      | nil =>
        cases bs with
        | nil => exact ⟨rfl, (List.cons.inj hbehind).2⟩
        | cons => exact absurd (List.cons.inj hbehind).1 hne.symm
      | cons =>
        cases bs with
        | nil => exact absurd (List.cons.inj hbehind).1 hne
        | cons =>
          have hothers := (List.cons.inj hbehind).2
          rw [List.append_assoc, List.append_assoc] at hothers
          obtain ⟨hrow, hrest⟩ := ih (List.append_cancel_left hothers)
          exact ⟨congrArg (a :: ·) hrow, hrest⟩

end Separated

/-- Fields on lines of their own can be told from what stands behind them. -/
theorem pretty_append_inj {fields fields' : List Field} {x y : Text}
    (h : separated [',', '\n'] (fields.map Field.pretty) ++ '\n' :: x =
      separated [',', '\n'] (fields'.map Field.pretty) ++ '\n' :: y) : fields = fields' ∧ x = y :=
  separated_append_inj rfl rfl (by decide) delimited_field
    (fun _ _ _ h => absurd (List.cons.inj h).1 (by decide)) h

theorem delimited_object : Delimited prettyObject := by
  intro fields fields' c d x y _ _ h
  simp only [prettyObject, List.append_assoc, List.cons_append, List.nil_append] at h
  have h := List.append_cancel_left h
  simp only [List.cons.injEq, true_and] at h
  obtain ⟨rfl, hbehind⟩ := pretty_append_inj h
  have hrest := List.append_cancel_left hbehind
  exact ⟨rfl, (List.cons.inj hrest).2⟩

/-- **Objects can be told from how they are written**, whatever texts they have in them. -/
theorem pretty_injective {objects objects' : List (List Field)}
    (h : pretty objects = pretty objects') : objects = objects' := by
  cases objects with
  | nil =>
    cases objects' with
    | nil => rfl
    | cons => simp [pretty] at h
  | cons =>
    cases objects' with
    | nil => simp [pretty] at h
    | cons =>
      simp only [pretty, List.cons_append, List.cons.injEq, true_and] at h
      exact (separated_append_inj rfl rfl (by decide) delimited_object
        (fun _ _ _ h => absurd (List.cons.inj h).1 (by decide)) h).1

theorem delimited_compact : Delimited Field.compact := by
  rintro ⟨key, value⟩ ⟨key', value'⟩ c d x y hc hd h
  simp only [Field.compact, List.append_assoc, List.cons_append] at h
  obtain ⟨rfl, hbehind⟩ := quote_append_inj h
  obtain ⟨rfl, hrest⟩ := delimited_value hc hd (List.cons.inj hbehind).2
  exact ⟨rfl, hrest⟩

/-- So can an object on one line. -/
theorem compact_injective {fields fields' : List Field} (h : compact fields = compact fields') :
    fields = fields' := by
  simp only [compact, List.cons_append, List.cons.injEq, true_and] at h
  exact (separated_append_inj rfl rfl (by decide) delimited_compact
    (fun _ _ _ h => absurd (List.cons.inj h).1 (by decide)) h).1

end Json

/-! ## Records -/

theorem StringForm.label_injective {form form' : StringForm} (h : form.label = form'.label) :
    form = form' := by
  cases form <;> cases form' <;> first | rfl | exact absurd h (by decide)

namespace Record

/-- The fields for the place of a token are those of its line and column. -/
theorem placeFields_eq_iff {l l' : Location} {showLocation : Bool} :
    placeFields (if showLocation then some l else none) =
        placeFields (if showLocation then some l' else none) ↔ l.ToldAlike showLocation l' := by
  cases showLocation <;> simp [placeFields, Location.ToldAlike]

/-- A kind can be told from its name and the field for the form of a string. -/
theorem kind_eq_of_fields {k k' : Kind} {fields fields' : List Json.Field}
    (hlabel : k.label = k'.label) (h : formFields k ++ fields = formFields k' ++ fields') :
    k = k' := by
  rcases Kind.eq_of_label hlabel with hk | ⟨form, form', rfl, rfl⟩
  · exact hk
  · simp only [formFields, Kind.stringForm?, List.cons_append, List.cons.injEq,
      Json.Field.mk.injEq, Json.Value.text.injEq, true_and] at h
    rw [StringForm.label_injective (String.toList_inj.mp h.1)]

/-- The fields of records are the same if the tokens are and begin in the same place, as far as it
is shown. -/
theorem fields_eq_iff (t u : Token) (l l' : Location) (showLocation : Bool) :
    (ofToken t l showLocation).fields = (ofToken u l' showLocation).fields ↔
      t = u ∧ l.ToldAlike showLocation l' := by
  obtain ⟨k, v⟩ := t
  obtain ⟨k', w⟩ := u
  rw [← placeFields_eq_iff]
  constructor
  · intro h
    simp only [fields, ofToken, List.cons_append, List.cons.injEq, Json.Field.mk.injEq,
      Json.Value.text.injEq, true_and] at h
    obtain ⟨hlabel, hbehind⟩ := h
    obtain rfl := kind_eq_of_fields (String.toList_inj.mp hlabel) hbehind
    have hrest := List.append_cancel_left hbehind
    simp only [List.cons.injEq, Json.Field.mk.injEq, Json.Value.text.injEq, true_and] at hrest
    obtain ⟨rfl, hplace⟩ := hrest
    exact ⟨rfl, hplace⟩
  · rintro ⟨ht, hplace⟩
    obtain ⟨rfl, rfl⟩ := Token.mk.inj ht
    simp only [fields, ofToken, hplace]

/-- So are the records on one line. -/
theorem json_eq_iff (t u : Token) (l l' : Location) (showLocation : Bool) :
    (ofToken t l showLocation).json = (ofToken u l' showLocation).json ↔
      t = u ∧ l.ToldAlike showLocation l' := by
  rw [← fields_eq_iff]
  exact ⟨Json.compact_injective, congrArg Json.compact⟩

end Record

/-! ## Dumps -/

open Scanner

/-- **A dump as JSON tells everything**: those of two sources are the same just when their tokens
are, in order, and begin in the same places if these are shown. Strings of two forms that look alike
as text are told apart. -/
theorem dump_json {input input' : Input} {scan scan' : Scan} (h : (start input).Yields scan)
    (h' : (start input').Yields scan') (name name' : String) (showLocation : Bool) :
    ((dump input name ⟨.json, showLocation⟩ .unlimited).written =
        (dump input' name' ⟨.json, showLocation⟩ .unlimited).written ↔
      scan.Matches (· = ·) showLocation scan') ∧
    ∀ (i : Nat) (v : Text) (place place' : Location),
      scan.found[i]? = some (⟨.string .hex, '~' :: v ++ ['~']⟩, place) →
      scan'.found[i]? = some (⟨.string .base85, v⟩, place') →
      (dump input name ⟨.json, showLocation⟩ .unlimited).written ≠
        (dump input' name' ⟨.json, showLocation⟩ .unlimited).written := by
  have hroom := Sink.unlimited_hasRoom
  rw [dump_of_yields h name _ (hroom _), dump_of_yields h' name' _ (hroom _)]
  simp only [Dump.full]
  have hmatches :
      Text.utf8 (Json.pretty ((scan.records showLocation).map Record.fields) ++ ['\n']) =
          Text.utf8 (Json.pretty ((scan'.records showLocation).map Record.fields) ++ ['\n']) ↔
        scan.Matches (· = ·) showLocation scan' := by
    rw [← Scan.map_records_eq_iff fun x _ y _ =>
      Record.fields_eq_iff x.1 y.1 x.2 y.2 showLocation]
    constructor
    · intro heq
      exact Json.pretty_injective (List.append_cancel_right (Text.utf8_injective heq))
    · intro heq
      rw [heq]
  refine ⟨hmatches, ?_⟩
  intro i v place place' hi hi' heq
  obtain ⟨hlt, hget⟩ := List.getElem?_eq_some_iff.mp hi
  obtain ⟨hlt', hget'⟩ := List.getElem?_eq_some_iff.mp hi'
  obtain ⟨hsame, -⟩ := (hmatches.mp heq).get hlt hlt'
  simp [hget, hget'] at hsame

/-- The tokens that have one line have two objects. -/
theorem dump_json_tildes :
    (start hexTildes).Yields ⟨[(⟨.string .hex, ['~', 'a', 'b', '~']⟩, .start)], none⟩ ∧
      (start base85Tildes).Yields ⟨[(⟨.string .base85, ['a', 'b']⟩, .start)], none⟩ ∧
      (dump hexTildes "p" ⟨.json, true⟩ .unlimited).written ≠
        (dump base85Tildes "p" ⟨.json, true⟩ .unlimited).written :=
  ⟨yields_hexTildes, yields_base85Tildes,
    (dump_json yields_hexTildes yields_base85Tildes "p" "p" true).2 0 ['a', 'b'] _ _ rfl rfl⟩

end PageTokens
