import TidySpace.Proofs.Places
import TidySpace.Proofs.Reruns

/-! # Ranges in the document

The document shows where a finding begins as its rule said, in the text in which it was made. Where it
ends is looked up later, in the files as they are by then. Both go together as long as the file holds
the text in which the finding was made: an analysis leaves the files alone, and fixing writes the text
that it made. Only where differences are shown instead, the file still holds the text before fixing, and
the end is looked up in that (`ranges_of_call`); it may even come before the beginning
(`range_of_difference`).
-/

namespace TidySpace

/-! ### Entries -/

namespace Document

/-- An entry of the document has a range between two positions. -/
def HasRange (entry : Value) (start stop : Position) : Prop :=
  ∃ members : Members, entry = .object members ∧ members.get? "range" = some (.object
    [("startLine", .int start.line), ("startCol", .int start.column),
      ("endLine", .int stop.line), ("endCol", .int stop.column)])

theorem orFirst_of_pos {n : Nat} (h : 1 ≤ n) : orFirst (some (n : Int)) = n := by
  rw [orFirst, if_neg (by omega)]

theorem hasRange_ofFinding {f : Finding} {p : Position} (h : f.ShownAt p) (b : Buffer) :
    HasRange (ofFinding (some b) f) p (b.position f.stop) := by
  refine ⟨_, rfl, ?_⟩
  have hRange : rangeOf (some b) f = .object
      [("startLine", .int p.line), ("startCol", .int p.column),
        ("endLine", .int (b.position f.stop).line), ("endCol", .int (b.position f.stop).column)] := by
    rw [rangeOf, rangeEnd, h.line, h.column, orFirst_of_pos h.line_pos, orFirst_of_pos h.column_pos]
  rw [← hRange]
  rfl

def entries (run : Run) (texts : Texts) : List Value :=
  run.findings.map fun f => ofFinding ((texts.map fun e => (e.1, Buffer.ofText e.2)).lookup f.file) f

theorem exists_members (run : Run) (texts : Texts) : ∃ members : Members,
    render run texts = Json.render (.object members) ∧
      members.get? "findings" = some (.list (entries run texts)) :=
  ⟨_, rfl, rfl⟩

end Document

theorem FileTree.lookup_readable {t : FileTree} {paths : List String} {path : String}
    {text : List Char} (hPath : path ∈ paths) (hText : t.readText? path = some text) :
    ((paths.flatMap t.readable).map fun e => (e.1, Buffer.ofText e.2)).lookup path =
      some (Buffer.ofText text) := by
  induction paths with
  | nil => exact absurd hPath List.not_mem_nil
  | cons first rest ih =>
    rw [List.flatMap_cons, List.map_append, List.lookup_append]
    by_cases hFirst : path = first
    · subst hFirst
      simp [readable, hText]
    · have hNone : ((t.readable first).map fun e => (e.1, Buffer.ofText e.2)).lookup path = none := by
        rw [readable]
        cases t.readText? first with
        | none => rfl
        | some other => simp [List.lookup_cons, beq_eq_false_iff_ne.2 hFirst]
      rw [hNone, Option.none_or, ih ((List.mem_cons.1 hPath).resolve_left hFirst)]

namespace CommandLine.Command

variable {c : Command} {reader : DocumentReader} {grammar : Grammar} {t t' : FileTree} {r : Report}

/-- The text in which a command has made a finding: what it read from the file, or what fixing made of
that. An analysis of this text has the finding. -/
inductive FoundIn (c : Command) (grammar : Grammar) (t : FileTree) (r : Report) (f : Finding) :
    List Char → Prop where
  | read {text : List Char} {found : List Finding} (hPlain : c.fix = false)
      (hText : t.readText? f.file = some text)
      (hFound : (Analysis.run grammar r.settings r.rules f.file text).result = .ok found)
      (hMem : f ∈ found) : FoundIn c grammar t r f text
  | fixed {original text : List Char} {left : List Finding} (hFix : c.fix = true)
      (hText : t.readText? f.file = some original)
      (hFixed : (Fixing.run grammar r.settings r.rules f.file original).result = .ok (text, left))
      (hFound : (Analysis.run grammar r.settings r.rules f.file text).result = .ok left)
      (hMem : f ∈ left) : FoundIn c grammar t r f text

theorem stdout_of_tell {differences : String} {run : Run} {printed : Printed}
    (hJson : c.format = some .json) (h : (c.tell differences run).Ends t printed t') :
    printed.stdout = differences ++ Document.render run
      ((Text.ascending (run.findings.map Finding.file)).flatMap t.readable) ++ "\n" := by
  obtain ⟨texts, _, ⟨hTexts, rfl⟩, h⟩ := Work.ends_bind.1 h
  obtain ⟨report, _, ⟨hReport, rfl⟩, h⟩ := Work.ends_bind.1 h
  obtain ⟨rfl, -⟩ := Work.ends_done.1 h
  rw [hJson, if_pos rfl] at hTexts
  obtain rfl := Except.ok.inj ((result_readTexts t _).symm.trans hTexts)
  change c.render run _ = .ok report at hReport
  rw [render, hJson] at hReport
  obtain rfl := Except.ok.inj hReport
  rfl

theorem exists_entries_of_tell {differences : String} {run : Run} {printed : Printed}
    (hJson : c.format = some .json) (h : (c.tell differences run).Ends t printed t') :
    ∃ members : Members, printed.stdout = differences ++ Json.render (.object members) ++ "\n" ∧
      members.get? "findings" = some (.list (Document.entries run
        ((Text.ascending (run.findings.map Finding.file)).flatMap t.readable))) := by
  obtain ⟨members, hMembers, hFindings⟩ := Document.exists_members run
    ((Text.ascending (run.findings.map Finding.file)).flatMap t.readable)
  exact ⟨members, hMembers ▸ stdout_of_tell hJson h, hFindings⟩

/-- **Where a finding was made, and what its file holds in the end.** Both are the same text, but for
differences that were shown. -/
theorem exists_text_of_finds (hReports : c.Reports reader grammar t r) {f : Finding} (hf : f ∈ r.findings) :
    ∃ computed kept, c.FoundIn grammar t r f computed ∧ f.ShownBy computed ∧
      r.after.readText? f.file = some kept ∧
      (c.fix = false ∨ c.diff = false → kept = computed) ∧
      (c.fix = true → c.diff = true → t.readText? f.file = some kept) := by
  obtain ⟨hRules, hCheck⟩ := Settings.chooseRules_eq_ok hReports.chooses
  have hFinds := hReports.finds
  cases hFix : c.fix with
  | false =>
    unfold find at hFinds
    rw [hFix, if_neg Bool.false_ne_true] at hFinds
    obtain ⟨jobs, _, ⟨-, rfl⟩, hFinds⟩ := Work.ends_bind.1 hFinds
    obtain ⟨findings, _, ⟨hRun, rfl⟩, hFinds⟩ := Work.ends_bind.1 hFinds
    obtain ⟨hPair, hAfter⟩ := Work.ends_done.1 hFinds
    obtain ⟨-, rfl⟩ := Prod.mk.inj hPair
    obtain ⟨path, -, text, found, hText, hFound, hMem⟩ := Batch.mem_of_run hRun hf
    obtain rfl := Analysis.file_eq_of_run hRules hFound f hMem
    refine ⟨text, text, .read hFix hText hFound hMem,
      Analysis.shownBy_of_run hRules hCheck hFound f hMem, hAfter ▸ hText, fun _ => rfl, ?_⟩
    intro hNot
    cases hNot
  | true =>
    replace hFinds := fixAll_of_find hFix hFinds
    obtain ⟨⟨path, original⟩, he, fixed, left, hFixed, hMem⟩ := mem_of_fixAll hFinds hf
    obtain ⟨path', hPath, he⟩ := List.mem_flatMap.1 he
    obtain ⟨hSame, hText⟩ := FileTree.mem_readable.1 he
    obtain rfl : path = path' := hSame
    obtain ⟨hTarget, hLeft⟩ := Fixing.eq_target hRules hFixed
    obtain rfl := Analysis.file_eq_of_run hRules hLeft f hMem
    have hFoundIn : c.FoundIn grammar t r f fixed := .fixed hFix hText hFixed hLeft hMem
    have hShown := Analysis.shownBy_of_run hRules hCheck hLeft f hMem
    cases hDiff : c.diff with
    | false =>
      rw [hDiff] at hFinds
      obtain ⟨-, -, -, hTexts, -⟩ := fixAll_files hRules hFinds
      refine ⟨fixed, fixed, hFoundIn, hShown, ?_, fun _ => rfl, ?_⟩
      · rw [hTexts _ hPath, hText, hTarget]
        rfl
      · intro _ hNot
        cases hNot
    | true =>
      rw [hDiff] at hFinds
      have hAfter := fixAll_shows hFinds
      refine ⟨fixed, original, hFoundIn, hShown, hAfter ▸ hText, ?_, fun _ _ => hText⟩
      rintro (hNot | hNot)
      · cases hNot
      · cases hNot

end CommandLine.Command

namespace CommandLine

/-- **The ranges of a document.** A command that tells what it has found as a document prints an entry
for each finding. Its range begins where the finding is shown, and that is not behind the end of what
the finding covers in the text in which it was made. The range ends there too, unless the command shows
differences instead of writing what it has fixed: then it ends where the offset is in the text before
fixing. -/
theorem ranges_of_call (reader : DocumentReader) (grammar : Grammar) (t t' : FileTree)
    (args : List String) (c : Command) (log : Logged Printed) (printed : Printed)
    (hArgs : Command.ofArguments args = .ok c) (hJson : c.format = some .json)
    (hCall : call args reader grammar t = .ran log t') (hEnds : log.result = .ok printed) :
    printed.stdout = "" ∨ ∃ (r : Report) (members : Members) (entries : List Value),
      c.Reports reader grammar t r ∧ r.printed = printed ∧ r.after = t' ∧
      printed.stdout = r.differences ++ Json.render (.object members) ++ "\n" ∧
      members.get? "findings" = some (.list entries) ∧
      List.Forall₂ (fun f entry => ∃ computed start stop, c.FoundIn grammar t r f computed ∧
        Document.HasRange entry start stop ∧
        start ≤ (Buffer.ofText computed).position f.stop ∧
        (c.fix = false ∨ c.diff = false → stop = (Buffer.ofText computed).position f.stop) ∧
        (c.fix = true → c.diff = true → ∃ original, t.readText? f.file = some original ∧
          stop = (Buffer.ofText original).position f.stop)) r.findings entries := by
  have hRun : (c.run reader grammar).Ends t printed t' := by
    rw [call, hArgs] at hCall
    obtain ⟨hLog, hFiles⟩ := Ending.ran.inj hCall
    exact ⟨hLog ▸ hEnds, hFiles⟩
  rcases Command.exists_report hRun with hEmpty | ⟨r, hReports, hPrinted, hAfter⟩
  · exact Or.inl hEmpty
  · obtain ⟨members, hStdout, hFindings⟩ := Command.exists_entries_of_tell hJson hReports.tells
    refine Or.inr ⟨r, members, _, hReports, hPrinted, hAfter, hPrinted ▸ hStdout, hFindings, ?_⟩
    rw [Document.entries, List.forall₂_map_right_iff, List.forall₂_same]
    intro f hf
    obtain ⟨computed, kept, hFound, ⟨start, hStart, hLe⟩, hKept, hSame, hOriginal⟩ :=
      Command.exists_text_of_finds hReports hf
    have hPath : f.file ∈ Text.ascending (r.findings.map Finding.file) :=
      Text.mem_ascending.2 (List.mem_map_of_mem hf)
    rw [FileTree.lookup_readable hPath hKept]
    refine ⟨computed, start, _, hFound, Document.hasRange_ofFinding hStart _, hLe, ?_, ?_⟩
    · intro hOne
      rw [hSame hOne]
    · intro hFix hDiff
      exact ⟨kept, hOriginal hFix hDiff, rfl⟩

/-! ### A difference that is shown -/

section Difference

open Utf8 (encode)

def indented : List Char := " \na = { /**/b};\n".toList

def outdented : List Char := "\na = { /**/b};\n".toList

def treeAt (k : Nat) : Node :=
  ⟨"program", true, k, k + 14, [⟨"expression_statement", true, k, k + 13, [
    ⟨"assignment_expression", true, k, k + 12, [⟨"identifier", true, k, k + 1, []⟩,
      ⟨"=", false, k + 2, k + 3, []⟩, ⟨"object", true, k + 4, k + 12, [
        ⟨"\x7b", false, k + 4, k + 5, []⟩, ⟨"comment", true, k + 6, k + 10, []⟩,
        ⟨"shorthand_property_identifier", true, k + 10, k + 11, []⟩,
        ⟨"\x7d", false, k + 11, k + 12, []⟩]⟩]⟩, ⟨";", false, k + 12, k + 13, []⟩]⟩]⟩

def knowingBoth : Grammar := fun text =>
  if text = indented then some (treeAt 2) else if text = outdented then some (treeAt 1) else none

def leading : Finding :=
  ⟨TrailingSpaces.id, TrailingSpaces.message, "a.js", 0, 1, .text "warn", some [⟨0, 1, []⟩],
    .object [("node_type", .text "program")], some 1, some 1⟩

/-- The space behind the brace, which nothing mends; the brace stops at a byte. -/
def unmended (stop : Nat) : Finding :=
  ⟨CurlySpacing.id, CurlySpacing.message .opening .unexpected, "a.js", stop - 1, stop, .text "warn",
    none, CurlySpacing.extraOf .objectExpression .opening, some 2, some 6⟩

def tokensAt (b : Buffer) (k : Nat) : List Token :=
  [("identifier", k, k + 1), ("=", k + 2, k + 3), ("\x7b", k + 4, k + 5),
    ("shorthand_property_identifier", k + 10, k + 11), ("\x7d", k + 11, k + 12),
    (";", k + 12, k + 13)].map fun t => b.token t.1 t.2.1 t.2.2

theorem viewOf_treeAt (text : List Char) {k : Nat} (hk : k = 1 ∨ k = 2) :
    Analysis.viewOf "a.js" text (some (treeAt k)) =
      ⟨"a.js", text, some (treeAt k), ⟨Buffer.ofText text, tokensAt (Buffer.ofText text) k⟩,
        some Language.javascript, .null⟩ := by
  have hTokens : (Source.ofText text (some (treeAt k))).tokens = tokensAt (Buffer.ofText text) k := by
    rw [Source.tokens_ofText]
    rcases hk with rfl | rfl <;> rfl
  rw [← hTokens]
  rfl

theorem run_indented : (Analysis.run knowingBoth .standard Standard.rules "a.js" indented).result =
    .ok [leading, unmended 7] := by
  have hGather : (Logged.gather (Analysis.ofRule .standard
      (Analysis.viewOf "a.js" indented (some (treeAt 2)))) Standard.rules).result =
        .ok [leading, unmended 7] := by
    rw [viewOf_treeAt indented (Or.inr rfl)]
    cbv
  have hTree : (Analysis.parse knowingBoth Standard.rules indented).result = .ok (some (treeAt 2)) := rfl
  rw [Analysis.result_run hTree hGather, Finding.unsuppressed_eq_self (by decide)]
  cbv

theorem run_outdented : (Analysis.run knowingBoth .standard Standard.rules "a.js" outdented).result =
    .ok [unmended 6] := by
  have hGather : (Logged.gather (Analysis.ofRule .standard
      (Analysis.viewOf "a.js" outdented (some (treeAt 1)))) Standard.rules).result =
        .ok [unmended 6] := by
    rw [viewOf_treeAt outdented (Or.inl rfl)]
    cbv
  have hTree : (Analysis.parse knowingBoth Standard.rules outdented).result = .ok (some (treeAt 1)) := rfl
  rw [Analysis.result_run hTree hGather, Finding.unsuppressed_eq_self (by decide)]
  cbv

/-- Fixing takes the space away, and leaves the one behind the brace. -/
theorem fix_indented : (Fixing.run knowingBoth .standard Standard.rules "a.js" indented).result =
    .ok (outdented, [unmended 6]) := by
  have hStep : Fixing.step? indented [leading, unmended 7] = .ok (some outdented) := by cbv
  rw [Fixing.run_eq_runWith]
  exact Fixing.runWith_of_step run_indented hStep run_outdented rfl

def single (text : List Char) : FileTree := ⟨["lib"], [(["lib", "a.js"], .file (encode text))]⟩

def documented (diff : Bool) : Command :=
  { paths := ["a.js"], format := some .json, fix := true, diff }

def documentedReport (diff : Bool) (printed : Printed) : Report where
  settings := .standard
  rules := Standard.rules
  files := ["a.js"]
  differences := if diff then Diff.unified indented outdented "a.js" else ""
  findings := [unmended 6]
  printed := printed
  after := single (if diff then indented else outdented)

theorem readText?_single (text : List Char) : (single text).readText? "a.js" = some text :=
  FileTree.readText?_of_get? (p := ["lib", "a.js"]) rfl rfl

theorem find_documented (diff : Bool) :
    ((documented diff).find knowingBoth .standard Standard.rules ["a.js"]).Ends (single indented)
      (if diff then Diff.unified indented outdented "a.js" else "", [unmended 6])
      (single (if diff then indented else outdented)) := by
  have hTexts : (readTexts (single indented) ["a.js"]).result = .ok [("a.js", indented)] := by
    rw [result_readTexts]
    simp only [List.flatMap_cons, List.flatMap_nil, FileTree.readable, readText?_single indented]
    rfl
  have hDelivers : (deliver diff "a.js" indented outdented).Ends (single indented)
      (if diff then Diff.unified indented outdented "a.js" else "")
      (single (if diff then indented else outdented)) := by
    rw [deliver, if_neg (by decide)]
    cases diff with
    | false => exact ⟨rfl, rfl⟩
    | true => exact ⟨rfl, rfl⟩
  refine Work.ends_bind.2 ⟨_, single indented, ⟨hTexts, rfl⟩, ends_fixAll_cons.2
    ⟨_, _, _, _, "", [], fix_indented, hDelivers, ⟨rfl, rfl⟩, ?_, rfl⟩⟩
  cases diff with
  | false => rfl
  | true => exact String.append_empty

/-- The file has findings that nothing mends, and they are told. -/
theorem exists_report_documented (diff : Bool) : ∃ printed,
    (documented diff).Reports readLimits knowingBoth (single indented) (documentedReport diff printed) := by
  obtain ⟨printed, hTells⟩ : ∃ printed, ((documented diff).tell
      (documentedReport diff ⟨0, "", ""⟩).differences ⟨[unmended 6], 1, 2, Project.noTimes⟩).Ends
        (single (if diff then indented else outdented)) printed
        (single (if diff then indented else outdented)) :=
    Command.exists_tell fun _ => ⟨_, rfl⟩
  have hLoads : (Command.loadSettings { paths := ["a.js"] } readLimits (single indented)).result =
      .ok .standard := rfl
  exact ⟨printed, hLoads, by cbv, rfl, List.cons_ne_nil _ _, find_documented diff, hTells⟩

def documentedArgs (diff : Bool) : List String :=
  ["--paths", "a.js", "--format", "json", "--fix"] ++ if diff then ["--diff"] else []

theorem ofArguments_documented (diff : Bool) :
    Command.ofArguments (documentedArgs diff) = .ok (documented diff) := by
  have hSorted : sortAll (documentedArgs diff) =
      .option .paths none :: .word "a.js" :: .option .format none :: .word "json" ::
        .option .fix none :: if diff then [.option .diff none] else [] := by
    cases diff <;> rfl
  have hTaken : Reading.takeAll {} (.option .paths none :: .word "a.js" :: .option .format none ::
      .word "json" :: .option .fix none :: if diff then [.option .diff none] else []) =
        .ok ⟨documented diff, true, false⟩ := by
    rw [Reading.takeAll_several _ _ _ rfl]
    show Reading.takeAll _ (.option .format none :: .word "json" :: _) = _
    rw [Reading.takeAll_single _ _ _ rfl]
    show Reading.takeAll _ (.option .fix none :: _) = _
    rw [Reading.takeAll_flag _ _ rfl]
    cases diff with
    | false =>
      show Reading.takeAll _ [] = _
      rw [Reading.takeAll]
      rfl
    | true =>
      show Reading.takeAll _ [.option .diff none] = _
      rw [Reading.takeAll_flag _ _ rfl]
      show Reading.takeAll _ [] = _
      rw [Reading.takeAll]
      rfl
  rw [Command.ofArguments, hSorted, hTaken]
  cases diff <;> rfl

theorem call_documented (diff : Bool) : ∃ log printed,
    call (documentedArgs diff) readLimits knowingBoth (single indented) =
        .ran log (single (if diff then indented else outdented)) ∧
      log.result = .ok printed ∧
      (documented diff).Reports readLimits knowingBoth (single indented)
        (documentedReport diff printed) := by
  obtain ⟨printed, hReports⟩ := exists_report_documented diff
  obtain ⟨log, hCall, hLog⟩ := Command.call_of_reports (ofArguments_documented diff) hReports
  exact ⟨log, printed, hCall, hLog, hReports⟩

/-- Where the fixed text is written, the finding that is left ends where it was made. -/
theorem ranges_of_call_fixed : ∃ (log : Logged Printed) (printed : Printed) (members : Members)
    (entry : Value) (computed : List Char) (start : Position),
    call ["--paths", "a.js", "--format", "json", "--fix"] readLimits knowingBoth (single indented) =
        .ran log (single outdented) ∧ log.result = .ok printed ∧
      printed.stdout = "" ++ Json.render (.object members) ++ "\n" ∧
      members.get? "findings" = some (.list [entry]) ∧
      (documented false).FoundIn knowingBoth (single indented) (documentedReport false printed)
        (unmended 6) computed ∧
      Document.HasRange entry start ((Buffer.ofText computed).position (unmended 6).stop) ∧
      start ≤ (Buffer.ofText computed).position (unmended 6).stop := by
  obtain ⟨log, printed, hCall, hLog, hReports⟩ := call_documented false
  obtain ⟨_, hStdout, -⟩ := Command.exists_entries_of_tell rfl hReports.tells
  have hSome : printed.stdout ≠ "" := by
    intro hEmpty
    obtain ⟨-, hNewline⟩ := String.append_eq_empty_iff.1 (hStdout.symm.trans hEmpty)
    exact absurd hNewline (by decide)
  obtain ⟨r, members, entries, hFixed, -, -, hDocument, hEntries, hRanges⟩ :=
    (ranges_of_call readLimits knowingBoth (single indented) (single outdented) (documentedArgs false)
      (documented false) log printed (ofArguments_documented false) rfl hCall hLog).resolve_left hSome
  obtain rfl := hFixed.unique hReports
  change List.Forall₂ _ [unmended 6] entries at hRanges
  obtain ⟨entry, _, ⟨computed, start, stop, hFound, hRange, hLe, hSame, -⟩, hRest, rfl⟩ :=
    List.forall₂_cons_left_iff.1 hRanges
  obtain rfl := List.forall₂_nil_left_iff.1 hRest
  obtain rfl := hSame (Or.inr rfl)
  exact ⟨log, printed, members, entry, computed, start, hCall, hLog, hDocument, hEntries, hFound,
    hRange, hLe⟩

theorem shownAt_unmended (stop : Nat) : (unmended stop).ShownAt ⟨2, 6⟩ :=
  ⟨rfl, rfl, by decide, by decide⟩

theorem entries_single (run : Run) (text : List Char) (h : run.findings = [unmended 6]) :
    Document.entries run
        ((Text.ascending (run.findings.map Finding.file)).flatMap (single text).readable) =
      [Document.ofFinding (some (Buffer.ofText text)) (unmended 6)] := by
  have hPath : (unmended 6).file ∈ Text.ascending ([unmended 6].map Finding.file) :=
    Text.mem_ascending.2 List.mem_cons_self
  rw [Document.entries, h, List.map_singleton,
    FileTree.lookup_readable hPath (readText?_single text)]

/-- **A range that ends before it begins.** The finding was made in the text without the space, where
the brace ends in the sixth column; in the file, which still has the space, its offset is one column
before that. -/
theorem range_of_difference : ∃ (log : Logged Printed) (printed : Printed) (r : Report)
    (members : Members) (entry : Value) (f : Finding) (computed : List Char) (start stop : Position),
    Command.ofArguments ["--paths", "a.js", "--format", "json", "--fix", "--diff"] =
        .ok (documented true) ∧ (documented true).format = some .json ∧
      call ["--paths", "a.js", "--format", "json", "--fix", "--diff"] readLimits knowingBoth
        (single indented) = .ran log (single indented) ∧ log.result = .ok printed ∧
      (documented true).Reports readLimits knowingBoth (single indented) r ∧ r.printed = printed ∧
      printed.stdout = r.differences ++ Json.render (.object members) ++ "\n" ∧
      members.get? "findings" = some (.list [entry]) ∧ r.findings = [f] ∧
      (documented true).FoundIn knowingBoth (single indented) r f computed ∧
      Document.HasRange entry start stop ∧ ¬ start ≤ stop ∧
      stop ≠ (Buffer.ofText computed).position f.stop := by
  obtain ⟨log, printed, hCall, hLog, hReports⟩ := call_documented true
  obtain ⟨members, hStdout, hFindings⟩ := Command.exists_entries_of_tell rfl hReports.tells
  have hEntries := entries_single ⟨[unmended 6], 1, 2, Project.noTimes⟩ indented rfl
  have hStop : (Buffer.ofText indented).position (unmended 6).stop = ⟨2, 5⟩ := by cbv
  have hComputed : (Buffer.ofText outdented).position (unmended 6).stop = ⟨2, 6⟩ := by cbv
  refine ⟨log, printed, documentedReport true printed, members, _, unmended 6, outdented, ⟨2, 6⟩, _,
    ofArguments_documented true, rfl, hCall, hLog, hReports, rfl, hStdout, ?_, rfl,
    .fixed rfl (readText?_single indented) fix_indented run_outdented List.mem_cons_self,
    Document.hasRange_ofFinding (shownAt_unmended 6) (Buffer.ofText indented), ?_, ?_⟩
  · exact hFindings.trans (congrArg (fun entries => some (Value.list entries)) hEntries)
  · rw [hStop]
    decide
  · rw [hStop, hComputed]
    decide

end Difference

end CommandLine

end TidySpace
