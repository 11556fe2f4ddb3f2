import TidySpace.Proofs.Ranges

/-! # Two ways to the document

Paths can be analysed by a call of the library, whose answer is a document, and by a command that
prints one. Both load the same settings, choose the same rules, list the same files and find the same,
so the documents have the same counts, and an entry for each finding that says the same of it, but for
its range (`documents_of_analyze`). The command looks up where the finding ends; the library does not
give its document the texts for that, and has every range end where it begins. Only a finding about an
opening brace is shown where it ends, so the documents are the same just if there are no others
(`Finding.IsOpening`).
-/

namespace TidySpace

/-! ### Findings that are shown where they end -/

theorem Buffer.position_ne_of_slice {text : List Char} {a b : Nat} {c : Char}
    (h : (ofText text).slice a b = [c]) (hPlain : c ≠ Char.ofNat 0xFFFD) (hReturn : c ≠ '\r') :
    (ofText text).position a ≠ (ofText text).position b := by
  obtain ⟨pre, post, hText, hStart, hStop⟩ :=
    cut_of_slice h (List.cons_ne_nil _ _) fun hMem => hPlain (List.mem_singleton.1 hMem).symm
  have hPos := Utf8.length_encodeChar_pos c
  have hWidth : Utf8.width [c] = (Utf8.encodeChar c).length := by
    rw [Utf8.width_cons, Utf8.width_nil, Nat.add_zero]
  have hEnd : IsStop text (Utf8.width (pre ++ [c])) := by
    have hCut : text = pre ++ [c] ++ post := by rw [hText, List.append_assoc]
    refine ⟨Utf8.isBoundary_iff.2 ⟨pre ++ [c], post, hCut, rfl⟩, ?_⟩
    intro pre' post' hPair hPaired
    have hSplit : pre' ++ ['\r'] ++ ('\n' :: post') = pre ++ [c] ++ post := by
      rw [← hCut, hPair, List.append_assoc]
      rfl
    have hWidths : Utf8.width (pre' ++ ['\r']) = Utf8.width (pre ++ [c]) := by
      rw [Utf8.width_append]
      exact hPaired.symm
    obtain ⟨mid, hMid, -⟩ := Utf8.exists_between hSplit (Nat.le_of_eq hWidths)
    obtain rfl : mid = [] := by
      refine Utf8.eq_nil_of_width ?_
      rw [hMid, Utf8.width_append _ mid] at hWidths
      omega
    rw [List.append_nil] at hMid
    exact hReturn (List.singleton_inj.1 (List.append_inj' hMid rfl).2)
  intro hSame
  -- The offset of the position behind the character is past it, that of the position before is not.
  obtain ⟨-, hBefore, -⟩ := isLastStop_offset text a
  obtain ⟨-, -, hBehind⟩ := isLastStop_offset text b
  rw [Utf8.width_append] at hEnd
  have hLe := hBehind _ hEnd (by omega)
  rw [← hSame] at hLe
  omega

/-- A finding about the inner side of an opening brace. -/
def Finding.IsOpening (f : Finding) : Prop := ∃ kind, f.extra = CurlySpacing.extraOf kind .opening

/-- A finding is shown at a place of a text, and what it covers ends there just if it is about an
opening brace. -/
def Finding.EndsIn (f : Finding) (text : List Char) (p : Position) : Prop :=
  f.ShownAt p ∧ (p = (Buffer.ofText text).position f.stop ↔ f.IsOpening)

theorem TrailingSpaces.exists_endsIn {text : List Char} {skip : Bool} {run : TrailingRun}
    (h : run ∈ TrailingRun.scan text skip) (id file : String) (severity : Value) :
    ∃ p, ((report run).finding id file severity (Buffer.ofText text)).EndsIn text p := by
  obtain ⟨hLine, hColumn, column, hLt, hStop⟩ := TrailingRun.position_stop_of_mem_scan h
  refine ⟨⟨run.line, run.column⟩, ⟨rfl, rfl, hLine, hColumn⟩, ?_⟩
  constructor
  · intro hSame
    have hColumns := congrArg Position.column (hSame.trans hStop)
    exact absurd hColumns (Nat.ne_of_lt hLt)
  · rintro ⟨kind, hExtra⟩
    simp [Report.finding, report, CurlySpacing.extraOf] at hExtra

namespace CurlySpacing

variable {text : List Char} {tree : Option Node} {o : CurlyOptions} {c : BraceConstruct} {r : Report}

theorem exists_endsIn (h : r ∈ reports (Source.ofText text tree) o c) (id file : String)
    (severity : Value) : ∃ p, (r.finding id file severity (Buffer.ofText text)).EndsIn text p := by
  obtain ⟨t, hBraces, h⟩ := braces_of_mem_reports h
  have hFound := found_of_braces? hBraces
  rcases h with h | h
  · obtain ⟨fault, -, rfl⟩ := Option.map_eq_some_iff.1 h
    obtain ⟨-, hStop⟩ := Source.positions_of_mem hFound.opening_mem
    have hPos := Buffer.position_pos text t.opening.stop
    rw [← hStop] at hPos
    exact ⟨t.opening.stopPos, ⟨rfl, rfl, hPos.1, hPos.2⟩, fun _ => ⟨c.kind, rfl⟩, fun _ => hStop⟩
  · obtain ⟨fault, -, rfl⟩ := Option.map_eq_some_iff.1 h
    obtain ⟨hStart, -⟩ := Source.positions_of_mem hFound.closing_mem
    have hPos := Buffer.position_pos text t.closing.start
    rw [← hStart] at hPos
    refine ⟨t.closing.startPos, ⟨rfl, rfl, hPos.1, hPos.2⟩, ?_⟩
    constructor
    · intro hSame
      rw [hStart] at hSame
      obtain ⟨kind, start, stop, hToken⟩ := Source.eq_token_of_mem hFound.closing_mem
      have hText := hFound.closing_text
      rw [hToken] at hText hSame
      exact absurd hSame (Buffer.position_ne_of_slice hText (by decide) (by decide))
    · rintro ⟨kind, hExtra⟩
      simp [Report.finding, extraOf, Side.name] at hExtra

end CurlySpacing

theorem Rule.Makes.exists_endsIn {rule : Rule} (hRule : rule ∈ Standard.rules) {path : String}
    {text : List Char} {tree : Option Node} {f : Finding}
    (h : rule.Makes (Analysis.viewOf path text tree) f) : ∃ p, f.EndsIn text p := by
  obtain ⟨r, id, severity, rfl, ⟨-, skip, run, hRun, rfl⟩ | ⟨-, root, o, c, -, hr⟩⟩ :=
    h.exists_report hRule
  · exact TrailingSpaces.exists_endsIn hRun id path severity
  · exact CurlySpacing.exists_endsIn hr id path severity

/-! ### Entries with and without a text -/

namespace Document

/-- Two objects have the same keys in order, and the same values under all of them but one. -/
def SameBut (key : String) (v w : Value) : Prop :=
  ∃ ms ns : Members, v = .object ms ∧ w = .object ns ∧ ms.keys = ns.keys ∧
    ∀ other, other ≠ key → ms.get? other = ns.get? other

def entry (texts : Texts) (f : Finding) : Value :=
  ofFinding ((texts.map fun e => (e.1, Buffer.ofText e.2)).lookup f.file) f

theorem rangeEnd_none {f : Finding} {p : Position} (h : f.ShownAt p) :
    rangeEnd none f = (↑p.line, ↑p.column) := by
  rw [rangeEnd, h.line, h.column, orFirst_of_pos h.line_pos, orFirst_of_pos h.column_pos]

theorem hasRange_of_none {f : Finding} {p : Position} (h : f.ShownAt p) :
    HasRange (ofFinding none f) p p := by
  refine ⟨_, rfl, ?_⟩
  have hRange : rangeOf none f = .object
      [("startLine", .int p.line), ("startCol", .int p.column),
        ("endLine", .int p.line), ("endCol", .int p.column)] := by
    rw [rangeOf, rangeEnd_none h, h.line, h.column, orFirst_of_pos h.line_pos,
      orFirst_of_pos h.column_pos]
  rw [← hRange]
  rfl

theorem sameBut_ofFinding (b b' : Option Buffer) (f : Finding) :
    SameBut "range" (ofFinding b f) (ofFinding b' f) := by
  refine ⟨_, _, rfl, rfl, rfl, ?_⟩
  intro other hOther
  simp only [List.cons_append, Members.get?_cons, if_neg hOther]

theorem sameBut_ofRun (run : Run) (texts texts' : Texts) :
    SameBut "findings" (ofRun run texts) (ofRun run texts') := by
  refine ⟨_, _, rfl, rfl, rfl, ?_⟩
  intro other hOther
  simp only [membersOf, List.cons_append, Members.get?_cons, if_neg hOther]

theorem ofFinding_eq_iff {b b' : Option Buffer} {f : Finding} :
    ofFinding b f = ofFinding b' f ↔ rangeEnd b f = rangeEnd b' f := by
  constructor
  · intro h
    have hRange : rangeOf b f = rangeOf b' f := by
      have hMembers := Value.object.inj h
      simpa using hMembers
    simpa [rangeOf, Prod.ext_iff] using hRange
  · intro h
    rw [ofFinding, ofFinding, rangeOf, rangeOf, h]

/-- **The entries of a finding with and without its text** are the same just if it is shown where it
ends. -/
theorem ofFinding_eq_none_iff {b : Buffer} {f : Finding} {p : Position} (h : f.ShownAt p) :
    ofFinding (some b) f = ofFinding none f ↔ p = b.position f.stop := by
  rw [ofFinding_eq_iff, rangeEnd_none h, rangeEnd]
  generalize b.position f.stop = q
  obtain ⟨line, column⟩ := p
  obtain ⟨line', column'⟩ := q
  simp only [Prod.mk.injEq, Int.ofNat_inj, Position.mk.injEq]
  exact and_congr eq_comm eq_comm

theorem membersOf_eq_iff {run : Run} {texts texts' : Texts} :
    membersOf run texts = membersOf run texts' ↔
      ∀ f ∈ run.findings, entry texts f = entry texts' f := by
  have hMembers (texts : Texts) : membersOf run texts =
      [("spacelint.protocol", .text protocolVersion), ("engine_version", .text engineVersion),
        ("files_scanned", .int run.files), ("rules_run", .int run.rules),
        ("findings", .list (run.findings.map (entry texts)))] := rfl
  rw [← List.map_inj_left, hMembers, hMembers]
  constructor
  · intro h
    simpa using h
  · intro h
    rw [h]

end Document

/-! ### The library and the command -/

theorem Batch.run_max (grammar : Grammar) (t : FileTree) (s : Settings) (rules : List Rule)
    (files : List String) (jobs : Int) :
    run grammar t s rules files (max 1 jobs) = run grammar t s rules files jobs := by
  have hLone : max 1 jobs ≤ 1 ↔ jobs ≤ 1 := by omega
  simp only [run, hLone]

namespace CommandLine

variable {c : Command} {reader : DocumentReader} {grammar : Grammar} {t : FileTree} {run : Run} {jobs : Int}

theorem Command.loadSettings_of_paths (h : c.paths ≠ []) :
    c.loadSettings reader t = Project.settings reader t c.paths c.settings := by
  have hSome : c.paths.isEmpty = false := by simpa using h
  rw [loadSettings, hSome, Bool.false_and, if_neg Bool.false_ne_true]

theorem Command.exists_report_of_analyze (hJson : c.format = some .json) (hPlain : c.fix = false)
    (hJobs : c.jobs = some jobs) (hPaths : c.paths ≠ [])
    (hRun : (Project.analyze reader grammar t c.paths c.patterns c.settings jobs).result = .ok run)
    (hListed : run.files ≠ 0) :
    ∃ r, c.Reports reader grammar t r ∧ r.differences = "" ∧ r.after = t ∧
      run = ⟨r.findings, r.files.length, r.rules.length, Project.noTimes⟩ := by
  rw [Project.analyze, Logged.result_bind, ← loadSettings_of_paths hPaths] at hRun
  obtain ⟨s, hLoads, hRun⟩ := bind_eq_ok hRun
  rw [Logged.result_bind] at hRun
  obtain ⟨rules, hChooses, hRun⟩ := bind_eq_ok hRun
  rw [Logged.result_bind] at hRun
  obtain ⟨files, hLists, hRun⟩ := bind_eq_ok hRun
  rw [Logged.result_bind] at hRun
  obtain ⟨findings, hFound, hRun⟩ := bind_eq_ok hRun
  cases hRun
  obtain ⟨printed, hTells⟩ : ∃ printed, (c.tell "" ⟨findings, files.length, rules.length,
      Project.noTimes⟩).Ends t printed t := by
    refine exists_tell fun texts => ?_
    rw [render, hJson]
    exact ⟨_, rfl⟩
  have hSome : files ≠ [] := by
    rintro rfl
    exact hListed rfl
  have hFinds : (c.find grammar s rules files).Ends t ("", findings) t := by
    have hWorkers : c.workers = .ok (max 1 jobs) := by
      rw [workers, hJobs]
    rw [← Batch.run_max] at hFound
    rw [find, hPlain, if_neg Bool.false_ne_true]
    exact Work.ends_bind.2 ⟨_, t, ⟨hWorkers, rfl⟩,
      Work.ends_bind.2 ⟨_, t, ⟨hFound, rfl⟩, rfl, rfl⟩⟩
  exact ⟨⟨s, rules, files, "", findings, printed, t⟩,
    ⟨hLoads, hChooses, hLists, hSome, hFinds, hTells⟩, rfl, rfl, rfl⟩

/-- **The document of the library and that of the command.** Where the library has an answer about
some files, the command ends and prints a document of the same run. Both documents have the same
members but for the findings, and the entries of a finding are the same but for the range. That of the
command ends at the position of the offset in the file's text, that of the library where it begins. So
the documents are the same just if every finding is about an opening brace. -/
theorem documents_of_analyze (reader : DocumentReader) (grammar : Grammar) (t : FileTree)
    (args : List String) (c : Command) (jobs : Int) (run : Run) (hArgs : Command.ofArguments args = .ok c)
    (hJson : c.format = some .json) (hPlain : c.fix = false) (hJobs : c.jobs = some jobs)
    (hPaths : c.paths ≠ [])
    (hRun : (Project.analyze reader grammar t c.paths c.patterns c.settings jobs).result = .ok run)
    (hListed : run.files ≠ 0) :
    ∃ log printed texts, call args reader grammar t = .ran log t ∧ log.result = .ok printed ∧
      printed.stdout = Json.render (Document.ofRun run texts) ++ "\n" ∧
      Document.SameBut "findings" (Document.ofRun run texts) (Document.ofRun run []) ∧
      (∀ f ∈ run.findings, ∃ text start, t.readText? f.file = some text ∧
        Document.HasRange (Document.entry texts f) start ((Buffer.ofText text).position f.stop) ∧
        Document.HasRange (Document.entry [] f) start start ∧
        Document.SameBut "range" (Document.entry texts f) (Document.entry [] f) ∧
        (Document.entry texts f = Document.entry [] f ↔ f.IsOpening)) ∧
      (Document.membersOf run texts = Document.membersOf run [] ↔
        ∀ f ∈ run.findings, f.IsOpening) := by
  obtain ⟨r, hReports, hShown, hAfter, rfl⟩ :=
    Command.exists_report_of_analyze hJson hPlain hJobs hPaths hRun hListed
  obtain ⟨log, hCall, hLog⟩ := Command.call_of_reports hArgs hReports
  obtain ⟨hRules, hCheck⟩ := Settings.chooseRules_eq_ok hReports.chooses
  have hStdout := Command.stdout_of_tell hJson hReports.tells
  rw [hAfter] at hCall
  rw [hShown, hAfter, String.empty_append] at hStdout
  have hEntries : ∀ f ∈ r.findings, ∃ text start, t.readText? f.file = some text ∧
      f.EndsIn text start ∧ Document.entry ((Text.ascending (r.findings.map
        Finding.file)).flatMap t.readable) f = Document.ofFinding (some (Buffer.ofText text)) f := by
    intro f hf
    obtain ⟨computed, -, hFoundIn, -⟩ := Command.exists_text_of_finds hReports hf
    cases hFoundIn with
    | fixed hFix => exact absurd (hPlain.symm.trans hFix) Bool.false_ne_true
    | read _ hText hFound hMem =>
      obtain ⟨rule, hRule, tree, -, hMakes⟩ := Analysis.made_of_run hRules hCheck hFound f hMem
      obtain ⟨start, hEnds⟩ := hMakes.exists_endsIn (hRules hRule)
      have hPath : f.file ∈ Text.ascending (r.findings.map Finding.file) :=
        Text.mem_ascending.2 (List.mem_map_of_mem hf)
      refine ⟨computed, start, hText, hEnds, ?_⟩
      rw [Document.entry, FileTree.lookup_readable hPath hText]
  refine ⟨log, r.printed, _, hCall, hLog, hStdout, Document.sameBut_ofRun _ _ _, ?_, ?_⟩
  · intro f hf
    obtain ⟨text, start, hText, hEnds, hEntry⟩ := hEntries f hf
    rw [hEntry]
    exact ⟨text, start, hText, Document.hasRange_ofFinding hEnds.1 _,
      Document.hasRange_of_none hEnds.1, Document.sameBut_ofFinding _ _ f,
      (Document.ofFinding_eq_none_iff hEnds.1).trans hEnds.2⟩
  · rw [Document.membersOf_eq_iff]
    refine forall₂_congr fun f hf => ?_
    obtain ⟨text, start, -, hEnds, hEntry⟩ := hEntries f hf
    rw [hEntry]
    exact (Document.ofFinding_eq_none_iff hEnds.1).trans hEnds.2

/-! ### A trailing space and an opening brace -/

section Indented

open Utf8 (encode)

def told : Command := { paths := ["a.js"], format := some .json }

def indentedRun : Run := ⟨[leading, unmended 7], 1, 2, Project.noTimes⟩

theorem analyze_indented : (Project.analyze readLimits knowingBoth (single indented) told.paths
    told.patterns told.settings 1).result = .ok indentedRun := by
  have hLoads : (Project.settings readLimits (single indented) told.paths told.settings).result =
      .ok .standard := rfl
  have hChooses : Settings.standard.chooseRules Language.javascript.name told.patterns =
      .ok Standard.rules := by cbv
  have hLists : (Project.files (single indented) told.paths).result = .ok ["a.js"] := rfl
  have hGather : (Logged.gather (Batch.ofFile knowingBoth (single indented) .standard Standard.rules)
      ["a.js"]).result = .ok [leading, unmended 7] := by
    rw [Logged.result_gather_cons, Batch.result_ofFile, readText?_single]
    dsimp only
    rw [run_indented]
    rfl
  have hFound : (Batch.run knowingBoth (single indented) .standard Standard.rules ["a.js"] 1).result =
      .ok [leading, unmended 7] := Batch.run_of_gather (m := 5000) rfl hGather 1
  simp only [Project.analyze, Logged.result_bind, hLoads, hChooses, hLists, hFound, Logged.lift,
    Except.bind]
  rfl

theorem ofArguments_told :
    Command.ofArguments ["--paths", "a.js", "--format", "json"] = .ok told := by
  have hSorted : sortAll ["--paths", "a.js", "--format", "json"] =
      [.option .paths none, .word "a.js", .option .format none, .word "json"] := rfl
  have hTaken : Reading.takeAll {} [.option .paths none, .word "a.js", .option .format none,
      .word "json"] = .ok ⟨told, true, false⟩ := by
    rw [Reading.takeAll_several _ _ _ rfl]
    show Reading.takeAll _ [.option .format none, .word "json"] = _
    rw [Reading.takeAll_single _ _ _ rfl]
    show Reading.takeAll _ [] = _
    rw [Reading.takeAll]
    rfl
  rw [Command.ofArguments, hSorted, hTaken]
  rfl

/-- The entry of the finding behind the brace is the same in both documents, that of the space on the
first line is not. -/
theorem documents_of_analyze_indented : ∃ log printed texts,
    call ["--paths", "a.js", "--format", "json"] readLimits knowingBoth (single indented) =
        .ran log (single indented) ∧ log.result = .ok printed ∧
      printed.stdout = Json.render (Document.ofRun indentedRun texts) ++ "\n" ∧
      Document.entry texts (unmended 7) = Document.entry [] (unmended 7) ∧
      Document.entry texts leading ≠ Document.entry [] leading := by
  obtain ⟨log, printed, texts, hCall, hLog, hStdout, -, hEntries, -⟩ :=
    documents_of_analyze readLimits knowingBoth (single indented) _ told 1 indentedRun
      ofArguments_told rfl rfl rfl (List.cons_ne_nil _ _) analyze_indented (by decide)
  obtain ⟨_, _, -, -, -, -, hBrace⟩ := hEntries (unmended 7) (List.mem_cons_of_mem _ List.mem_cons_self)
  obtain ⟨_, _, -, -, -, -, hSpace⟩ := hEntries leading List.mem_cons_self
  refine ⟨log, printed, texts, hCall, hLog, hStdout, hBrace.2 ⟨.objectExpression, rfl⟩, ?_⟩
  intro hSame
  obtain ⟨kind, hExtra⟩ := hSpace.1 hSame
  simp [leading, CurlySpacing.extraOf] at hExtra

/-- **The library and the command disagree** about the space on the first line: the command has its
range end behind it, the library where it begins. -/
theorem documents_differ : ∃ log printed texts,
    Command.ofArguments ["--paths", "a.js", "--format", "json"] = .ok told ∧
      told.format = some .json ∧ told.fix = false ∧ told.jobs = some 1 ∧
      (Project.analyze readLimits knowingBoth (single indented) told.paths told.patterns told.settings
        1).result = .ok indentedRun ∧ indentedRun.files = 1 ∧
      call ["--paths", "a.js", "--format", "json"] readLimits knowingBoth (single indented) =
        .ran log (single indented) ∧ log.result = .ok printed ∧
      printed.stdout = Json.render (Document.ofRun indentedRun texts) ++ "\n" ∧
      Document.HasRange (Document.entry texts leading) ⟨1, 1⟩ ⟨1, 2⟩ ∧
      Document.HasRange (Document.entry [] leading) ⟨1, 1⟩ ⟨1, 1⟩ ∧
      Document.membersOf indentedRun texts ≠ Document.membersOf indentedRun [] ∧
      printed.stdout ≠ Json.render (Document.ofRun indentedRun []) ++ "\n" := by
  obtain ⟨r, hReports, hShown, hAfter, hSame⟩ := Command.exists_report_of_analyze (c := told) rfl rfl rfl
    (List.cons_ne_nil _ _) analyze_indented (by decide)
  obtain ⟨log, hCall, hLog⟩ := Command.call_of_reports ofArguments_told hReports
  have hStdout := Command.stdout_of_tell rfl hReports.tells
  have hTexts : (Text.ascending (indentedRun.findings.map Finding.file)).flatMap
      (single indented).readable = [("a.js", indented)] := by
    have hPaths : Text.ascending (indentedRun.findings.map Finding.file) = ["a.js"] := by decide
    rw [hPaths, List.flatMap_singleton, FileTree.readable, readText?_single]
    rfl
  rw [hAfter] at hCall
  rw [← hSame, hShown, hAfter, String.empty_append, hTexts] at hStdout
  have hStart : leading.ShownAt ⟨1, 1⟩ := ⟨rfl, rfl, by decide, by decide⟩
  have hStop : (Buffer.ofText indented).position leading.stop = ⟨1, 2⟩ := by cbv
  refine ⟨log, r.printed, [("a.js", indented)], ofArguments_told, rfl, rfl, rfl, analyze_indented, rfl,
    hCall, hLog, hStdout, ?_, Document.hasRange_of_none hStart, ?_, ?_⟩
  · exact hStop ▸ Document.hasRange_ofFinding hStart (Buffer.ofText indented)
  · intro hMembers
    have hEntry := Document.membersOf_eq_iff.1 hMembers leading List.mem_cons_self
    have hPlace := (Document.ofFinding_eq_none_iff hStart).1 hEntry
    rw [hStop] at hPlace
    exact absurd hPlace (by decide)
  · rw [hStdout]
    decide +kernel

end Indented

end CommandLine

end TidySpace
