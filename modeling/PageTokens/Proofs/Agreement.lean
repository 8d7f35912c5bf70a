import Mathlib
import PageTokens.Proofs.Consumers

/-!
# The agreement of those who ask

The last of those who ask for a scan are the two commands. They read their command lines and find
their settings in the same way (`CommandLine.parse_file`, `Program.run_file_cases`), and open the
same source. What is left is to compare a check of it with a dump as text, in which the tokens show
as lines (`Program.checkReport_iff`).

The main statement is `consumers_agree`.
-/

namespace PageTokens

namespace CommandLine

/-- A level without options, all of which is settled. -/
structure Level.Optionless (l : Level) : Prop where
  /-- no switch was given -/
  switches : l.switches = []
  /-- no configuration file was named -/
  config : l.config = none
  /-- nothing is to be settled -/
  pending : l.pending = none

/-- The checks of variables do not depend on the level, if it is one without options. -/
theorem exists_checkSwitch (s : Switch) (given : Option String) :
    ∃ check : Except Misuse Unit, ∀ l : Level, l.Optionless →
      l.checkSwitch s given = check.mapError Stop.misuse := by
  cases given with
  | none => exact ⟨.ok (), fun _ _ => rfl⟩
  | some value =>
    refine ⟨if value = "true" || value = "false" then .ok () else
      .error (.badVariable (.switch s) value), ?_⟩
    intro l hl
    simp only [Level.checkSwitch, hl.switches, List.not_mem_nil, decide_false, Bool.false_or]
    split <;> rfl

theorem exists_checkConfig (given : Option String) :
    ∃ check : Except Misuse Unit, ∀ l : Level, l.Optionless →
      l.checkConfig given = check.mapError Stop.misuse := by
  cases given with
  | none => exact ⟨.ok (), fun _ _ => rfl⟩
  | some value =>
    refine ⟨if !value.isEmpty then .ok () else .error (.badVariable (.setting .config) value), ?_⟩
    intro l hl
    simp only [Level.checkConfig, hl.config, Option.isSome_none, Bool.false_or]
    split <;> rfl

/-- Nothing but a mistake in a variable keeps a level without options from being closed. -/
theorem exists_close (env : Variables) :
    ∃ checks : Except Misuse Unit, ∀ l : Level, l.Optionless →
      l.close env = (checks.mapError Stop.misuse).map fun _ => l := by
  obtain ⟨verbose, hverbose⟩ := exists_checkSwitch .verbose env.verbose
  obtain ⟨config, hconfig⟩ := exists_checkConfig env.config
  obtain ⟨noColor, hnoColor⟩ := exists_checkSwitch .noColor env.noColor
  refine ⟨do verbose; config; noColor, ?_⟩
  intro l hl
  have hsettle : l.settle = .ok l := by
    rw [Level.settle, hl.pending]
  rw [Level.close, hsettle]
  simp only [bind, Except.bind, hverbose l hl, hconfig l hl, hnoColor l hl]
  cases verbose <;> cases config <;> cases noColor <;> rfl

/-- A command whose words leave no option open is carried out with the configuration file and the
log that the environment asks for, unless there is a mistake. -/
theorem exists_parseCommand (env : Variables) (read : Except Misuse Unit) :
    ∃ asked : Except Misuse (Option String × Diagnostics), ∀ verb words (level : Level),
      level.Optionless →
      words.foldlM (Level.word · (.behind verb) ·) Level.start =
        (read.mapError Stop.misuse).map (fun _ => level) →
      parseCommand env .start verb words =
        (asked.mapError Stop.misuse).map fun (config, diagnostics) =>
          ⟨commandOf level verb, config, diagnostics⟩ := by
  obtain ⟨checks, hclose⟩ := exists_close env
  refine ⟨do read; checks; return (env.config, diagnosticsOf env .start .start), ?_⟩
  intro verb words level hl hwords
  rw [parseCommand, hwords]
  cases read with
  | error m => rfl
  | ok _ =>
    have hlevel := hclose level hl
    have htop := hclose .start ⟨rfl, rfl, rfl⟩
    simp only [bind, Except.bind, Except.map, Except.mapError, hlevel, htop]
    cases checks with
    | error m => rfl
    | ok _ => simp [hl.config, hl.switches, diagnosticsOf, Level.start, pure, Except.pure]

/-- A word that is no option and no value is an operand, if it is not empty. -/
theorem word_operand {l settled : Level} {scope : Scope} {w : String} (hs : shape w = .plain)
    (hc : l.closed = false) (ha : l.awaitsValue = false) (hsettle : l.settle = .ok settled)
    (hallow : scope.allowsOperand settled.operands = true) :
    l.word scope w =
      (Except.mapError Stop.misuse (if w.isEmpty then .error (.badOperand w) else .ok ())).map
        fun _ => { settled with operands := settled.operands ++ [w] } := by
  have hplain : l.plain scope w = (do (← l.settle).operand scope w) := by
    unfold Level.plain
    split
    · next h =>
      rw [Level.awaitsValue, h] at ha
      cases ha
    · rfl
  simp only [Level.word, hc, hs, hplain, hsettle, bind, Except.bind]
  by_cases hw : w.isEmpty = true
  · simp [Level.operand, hw, Except.mapError, Except.map]
  · simp [Level.operand, hw, hallow, Except.mapError, Except.map]

/-- One file to be checked, and one to be dumped as text, are asked for alike. -/
theorem parse_file {path : String} (h : shape path = .plain) (env : Variables) :
    ∃ asked : Except Misuse (Option String × Diagnostics),
      parse env ["check", path] =
        (asked.mapError Stop.misuse).map (fun (config, diagnostics) =>
          ⟨.check [path], config, diagnostics⟩) ∧
      parse env ["tokens", "-F", "text", path] =
        (asked.mapError Stop.misuse).map fun (config, diagnostics) =>
          ⟨.tokens (some path) (some .text) false, config, diagnostics⟩ := by
  obtain ⟨asked, hparse⟩ :=
    exists_parseCommand env (if path.isEmpty then .error (.badOperand path) else .ok ())
  refine ⟨asked, ?_, ?_⟩
  · refine hparse .check [path] { Level.start with operands := [path] } ⟨rfl, rfl, rfl⟩ ?_
    rw [List.foldlM_cons, word_operand h rfl rfl rfl rfl]
    cases Except.mapError Stop.misuse _ <;> rfl
  · refine hparse .tokens ["-F", "text", path]
      { Level.start with operands := [path], format := some .text } ⟨rfl, rfl, rfl⟩ ?_
    -- the format is settled only by the word behind its value
    let awaiting : Level := { Level.start with pending := some ⟨.format, some "text"⟩ }
    have hformat : ["-F", "text", path].foldlM (Level.word · (.behind .tokens) ·) Level.start =
      [path].foldlM (Level.word · (.behind .tokens) ·) awaiting := rfl
    rw [hformat, List.foldlM_cons, word_operand h rfl rfl rfl rfl]
    cases Except.mapError Stop.misuse _ <;> rfl

end CommandLine

namespace Program

open CommandLine Scanner

/-- A count can be read off the line that tells it. -/
theorem okLine_injective {name : String} {m n : Nat}
    (h : line s!"{name}: ok ({m} tokens)" = line s!"{name}: ok ({n} tokens)") : m = n := by
  have ht := Text.utf8_injective h
  simp only [String.toList_append, List.append_assoc, List.append_cancel_left_eq,
    List.append_cancel_right_eq] at ht
  refine toDigits_injective ?_
  rw [← Nat.toList_repr, ← Nat.toList_repr]
  exact ht

section Runs

variable (sys : System Id)

/-- A path that does not mean the standard input is looked up. -/
theorem openSource_of_file {path : String} (h : isStdin path = false) (fresh : Bool) :
    openSource sys fresh path = (inputOf path (sys.look path)).map (⟨path, ·⟩) := by
  rw [openSource, if_neg (by simp [h])]
  rfl

/-- A single path is checked as it is opened. -/
theorem runCheck_singleton (path : String) :
    runCheck sys [path] = checkReport [examineOpened (openSource sys true path)] := rfl

variable {sys}

/-- A command line that is understood is carried out. -/
theorem run_of_ok {words : List String} {invocation : Invocation}
    (h : parse (readVariables sys) words = .ok invocation) :
    run sys words = runInvocation sys invocation := by
  simp only [run, h, bind]

theorem run_of_error {words : List String} {stop : Stop}
    (h : parse (readVariables sys) words = .error stop) : run sys words = stopped stop := by
  simp only [run, h, bind, pure]

/-- What comes of a command line is a matter of the settings that are found, behind what is told of
the look for them. -/
theorem runInvocation_of_loading {invocation : Invocation} {loading : Loading}
    (h : loadSettings sys invocation.config = loading) :
    runInvocation sys invocation =
      ⟨Report.behind (runSettled sys invocation.command loading.settings) loading.notices,
        invocation.diagnostics⟩ := by
  simp only [runInvocation, h, bind, pure]

/-- A source that is opened is dumped. -/
theorem runTokens_of_ok {settings : Settings} {input : Option String} {s : Source}
    (h : openSource sys true (input.getD "-") = Except.ok s) :
    runTokens sys settings input = tokensReport settings s := by
  simp only [runTokens, h, bind, pure]

theorem runTokens_of_error {settings : Settings} {input : Option String} {e : Error}
    (h : openSource sys true (input.getD "-") = Except.error e) :
    runTokens sys settings input = .ofResult [] [] (some e) := by
  simp only [runTokens, h, bind, pure]

end Runs

/-- Checking a file and dumping it fail in the same way before the file is looked at, or both come
to carrying out their commands, the dump one of text. -/
theorem run_file_cases (sys : System Id) {path : String} (h : shape path = .plain) :
    (∃ o : Outcome, o.code ≠ 0 ∧ run sys ["check", path] = o ∧
      run sys ["tokens", "-F", "text", path] = o) ∨
    ∃ (settings : Settings) (notices : List Notice) (diagnostics : Diagnostics),
      settings.format = .text ∧
      run sys ["check", path] = ⟨Report.behind (runCheck sys [path]) notices, diagnostics⟩ ∧
      run sys ["tokens", "-F", "text", path] =
        ⟨Report.behind (runTokens sys settings (some path)) notices, diagnostics⟩ := by
  obtain ⟨asked, hcheck, htokens⟩ := parse_file h (readVariables sys)
  cases asked with
  | error m =>
    exact .inl ⟨stopped (.misuse m), by simp [stopped], run_of_error hcheck, run_of_error htokens⟩
  | ok asked =>
    obtain ⟨config, diagnostics⟩ := asked
    rw [run_of_ok hcheck, run_of_ok htokens]
    obtain ⟨⟨notices, found⟩, hload⟩ :
      ∃ loading : Loading, loadSettings sys config = loading := ⟨_, rfl⟩
    rw [runInvocation_of_loading hload, runInvocation_of_loading hload]
    cases found with
    | error e =>
      exact .inl ⟨⟨Report.behind (.ofResult [] [] (some e)) notices, diagnostics⟩,
        Nat.one_ne_zero, rfl, rfl⟩
    | ok settings =>
      exact .inr ⟨settings.override (some .text) false, notices, diagnostics, rfl, rfl, rfl⟩

/-- Dumped as text, a source has as many lines as it is found to have tokens when it is checked. -/
theorem checkReport_iff (settings : Settings) (hformat : settings.format = .text) (s : Source)
    (n : Nat) :
    (checkReport [examine s]).code = 0 ∧
        (checkReport [examine s]).stdout = line s!"{s.name}: ok ({n} tokens)" ↔
      (tokensReport settings s).code = 0 ∧ (tokensReport settings s).stdout.count 0x0a = n := by
  obtain ⟨scan, hscan⟩ := exists_yields (start s.input)
  have hdump := dump_of_yields hscan s.name settings (Sink.unlimited_hasRoom _)
  have hcount : (Dump.full .text (scan.records settings.showLocation)).count 0x0a =
      scan.found.length := by
    rw [Dump.full, Dump.count_lines, Scan.records, List.length_map]
  have hverdict := examine_of_yields hscan
  rw [checkReport, tokensReport, hdump, hformat]
  simp only [List.map_cons, List.map_nil, hverdict, Report.code_ofResult, Report.stdout_ofResult,
    hcount]
  cases he : scan.error with
  | some e => simp [Scan.verdict, he, checkError?, isFault]
  | none =>
    simp only [Scan.verdict, he, checkError?, isFault, okLine, List.flatMap_cons, List.flatMap_nil,
      List.append_nil, List.countP_cons, List.countP_nil]
    constructor
    · rintro ⟨-, h⟩
      exact ⟨rfl, okLine_injective h⟩
    · rintro ⟨-, rfl⟩
      exact ⟨rfl, rfl⟩

/-- A file is found good, with a number of tokens, just when its dump as text is complete and has
that number of lines. -/
theorem run_check_iff (sys : System Id) {path : String} (h : shape path = .plain)
    (hfile : isStdin path = false) (n : Nat) :
    (run sys ["check", path]).code = 0 ∧
        (run sys ["check", path]).stdout = line s!"{path}: ok ({n} tokens)" ↔
      (run sys ["tokens", "-F", "text", path]).code = 0 ∧
        (run sys ["tokens", "-F", "text", path]).stdout.count 0x0a = n := by
  rcases run_file_cases sys h with
    ⟨o, hcode, hcheck, htokens⟩ | ⟨settings, notices, diagnostics, hformat, hcheck, htokens⟩
  · rw [hcheck, htokens]
    exact iff_of_false (fun h => hcode h.1) (fun h => hcode h.1)
  · have hopen := openSource_of_file sys hfile true
    rw [hcheck, htokens, runCheck_singleton]
    simp only [Report.code_behind, Report.stdout_behind]
    cases hinput : inputOf path (sys.look path) with
    | error e =>
      rw [hinput] at hopen
      rw [hopen, runTokens_of_error hopen]
      exact iff_of_false (fun h => Nat.one_ne_zero h.1) (fun h => Nat.one_ne_zero h.1)
    | ok input =>
      rw [hinput] at hopen
      rw [hopen, runTokens_of_ok hopen]
      exact checkReport_iff settings hformat ⟨path, input⟩ n

end Program

/-! ## The main statement -/

/-- Whoever asks for the scan of an input gets this one. -/
structure Scan.SeenOf (scan : Scan) (input : Input) : Prop where
  /-- who asks for one token after another, however often -/
  one_by_one : ∀ k, (Session.run (.start input) (.replicate k .next)).map Step.response =
    (List.range k).map fun i => .one (scan.answerAt i)
  /-- who collects the tokens -/
  collected : (Scanner.start input).collect.tokens = scan.result
  /-- who tokenizes the input -/
  tokenized : tokenize input = scan.result
  /-- who dumps it, to a sink that has room for the dump -/
  dumped : ∀ name (settings : Settings) (sink : Sink),
    sink.HasRoom (scan.dumped settings).length →
    dump input name settings sink = ⟨scan.dumped settings, scan.error.map (.scan name)⟩
  /-- who checks it -/
  checked : ∀ name, (Program.examine ⟨name, input⟩).verdict = scan.verdict name

theorem Scanner.Yields.seenOf {input : Input} {scan : Scan}
    (h : (Scanner.start input).Yields scan) : scan.SeenOf input where
  one_by_one := h.nexts rfl
  collected := h.collect rfl
  tokenized := h.collect rfl
  dumped name settings sink hroom := by
    rw [← scan.full_records settings] at hroom ⊢
    exact dump_of_yields h name settings hroom
  checked _ := examine_of_yields h

open Program CommandLine in
/-- **Every consumer sees the same scan**: what the reads of an input yield is what its tokens one
by one, all of them at once, its dump and its check come to. So a file is checked to be good, with
some number of tokens, just when it is dumped without an error in that number of lines. -/
theorem consumers_agree :
    (∀ input : Input, ∃ scan : Scan, (Scanner.start input).Yields scan ∧ scan.SeenOf input) ∧
      ∀ (sys : System Id) (path : String), shape path = .plain → isStdin path = false → ∀ n,
        ((run sys ["check", path]).code = 0 ∧
            (run sys ["check", path]).stdout = line s!"{path}: ok ({n} tokens)" ↔
          (run sys ["tokens", "-F", "text", path]).code = 0 ∧
            (run sys ["tokens", "-F", "text", path]).stdout.count 0x0a = n) := by
  constructor
  · intro input
    obtain ⟨scan, hscan⟩ := Scanner.exists_yields (.start input)
    exact ⟨scan, hscan, hscan.seenOf⟩
  · intro sys path hpath hfile n
    exact run_check_iff sys hpath hfile n

/-- Surroundings with one file, `(b) c`. -/
def oneFile : System Id where
  look path := if path = "a" then .file [0x28, 0x62, 0x29, 0x20, 0x63] else .nothing .notFound
  env _ := none
  stdin := []

theorem run_oneFile :
    (CommandLine.shape "a" = .plain ∧ Program.isStdin "a" = false ∧
      (Program.run oneFile ["check", "a"]).code = 0 ∧
      (Program.run oneFile ["check", "a"]).stdout = line "a: ok (2 tokens)") ∧
    ∃ scan : Scan, (Scanner.start (.ofBytes [0x28, 0x62])).Yields scan ∧
      Sink.unlimited.HasRoom (scan.dumped .default).length ∧
      dump (.ofBytes [0x28, 0x62]) "a" .default .unlimited =
        ⟨scan.dumped .default, scan.error.map (.scan "a")⟩ := by
  have hshape : CommandLine.shape "a" = .plain := rfl
  have hfile : Program.isStdin "a" = false := by cbv
  have hopen := Program.openSource_of_file oneFile hfile true
  have hrun : Program.run oneFile ["tokens", "-F", "text", "a"] =
    ⟨Program.Report.behind (Program.runTokens oneFile .default (some "a")) [],
      ⟨false, false⟩⟩ := rfl
  rw [Program.runTokens_of_ok hopen] at hrun
  have hchecked := (consumers_agree.2 oneFile "a" hshape hfile 2).mpr
    ⟨by rw [hrun]; decide +kernel, by rw [hrun]; decide +kernel⟩
  have hline : ∀ path : String, path = "a" → s!"{path}: ok ({2} tokens)" = "a: ok (2 tokens)" := by
    rintro _ rfl
    decide
  rw [hline "a" rfl] at hchecked
  obtain ⟨scan, hscan, hseen⟩ := consumers_agree.1 (.ofBytes [0x28, 0x62])
  have hroom := Sink.unlimited_hasRoom (scan.dumped .default).length
  exact ⟨⟨hshape, hfile, hchecked⟩, scan, hscan, hroom, hseen.dumped "a" .default .unlimited hroom⟩

end PageTokens
