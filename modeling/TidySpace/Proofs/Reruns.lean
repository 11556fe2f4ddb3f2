import TidySpace.Proofs.FixedFiles
import TidySpace.Proofs.LoadedSettings
import TidySpace.Proofs.Stability

/-! # Running again after fixing

A command that ends has a report, or nothing to print but a fault (`exists_report`). The report has the
settings and rules that were chosen, the files that were listed, the findings in them, what was
printed, and the files that are left. Where a command has fixed files and the settings are not in one
of them, the same command without fixing has the same settings, rules and files there, and finds what
was left, up to the limit that only it looks at (`plain_after_fix`).
-/

namespace TidySpace

/-! ### Choosing rules -/

theorem Registry.selected_subset {ρ : Type} {patterns : Value} {rules chosen : List (Listed ρ)}
    (h : selected patterns rules = .ok chosen) : chosen ⊆ rules := by
  induction rules generalizing chosen with
  | nil =>
    cases h
    exact List.Subset.refl _
  | cons rule rest ih =>
    rw [selected] at h
    obtain ⟨items, -, h⟩ := bind_eq_ok h
    obtain ⟨isChosen, -, h⟩ := bind_eq_ok h
    obtain ⟨others, hOthers, h⟩ := bind_eq_ok h
    cases h
    split
    next => exact List.cons_subset_cons rule (ih hOthers)
    next => exact List.subset_cons_of_subset rule (ih hOthers)

theorem Registry.enabled_subset {ρ α : Type} {r : Registry ρ α} {patterns : Value}
    {language : String} {chosen : List (Listed ρ)} (h : r.enabled patterns language = .ok chosen) :
    chosen ⊆ r.rules := by
  have hFor : r.rulesFor language ⊆ r.rules := List.filter_subset_self _
  unfold enabled at h
  split at h
  next =>
    cases h
    exact List.nil_subset _
  next =>
    split at h
    next =>
      cases h
      exact hFor
    next => exact List.Subset.trans (selected_subset h) hFor

theorem Settings.chooseRules_eq_ok {s : Settings} {language : String} {patterns : Value}
    {rules : List Rule} (h : s.chooseRules language patterns = .ok rules) :
    rules ⊆ Standard.rules ∧ s.check rules = .ok () := by
  obtain ⟨listed, hListed, h⟩ := bind_eq_ok h
  obtain ⟨⟨⟩, hCheck, h⟩ := bind_eq_ok h
  cases h
  exact ⟨List.map_subset _ (Registry.enabled_subset (mapError_eq_ok hListed)), hCheck⟩

theorem Settings.chooseRules_subset {s : Settings} {language : String} {patterns : Value}
    {rules : List Rule} (h : s.chooseRules language patterns = .ok rules) :
    rules ⊆ Standard.rules := (chooseRules_eq_ok h).1

/-! ### Telling fewer findings -/

section MapM

variable {ε α β : Type} {f : α → Except ε β} {xs : List α}

theorem exists_mapM_iff : (∃ ys, xs.mapM f = .ok ys) ↔ ∀ x ∈ xs, ∃ y, f x = .ok y := by
  induction xs with
  | nil => exact ⟨fun _ x hx => absurd hx List.not_mem_nil, fun _ => ⟨[], rfl⟩⟩
  | cons x rest ih =>
    rw [List.mapM_cons, List.forall_mem_cons, ← ih]
    constructor
    · rintro ⟨ys, h⟩
      obtain ⟨y, hy, h⟩ := bind_eq_ok h
      obtain ⟨later, hLater, -⟩ := bind_eq_ok h
      exact ⟨⟨y, hy⟩, later, hLater⟩
    · rintro ⟨⟨y, hy⟩, later, hLater⟩
      exact ⟨y :: later, by rw [hy, hLater]; rfl⟩

end MapM

namespace Summary

variable {run run' : Run}

/-- **What can be told**: findings whose lines can, with times that can. -/
theorem exists_render_iff : (∃ text, render run = .ok text) ↔
    (∀ f ∈ run.findings, ∃ line, findingLine f = .ok line) ∧
      (∃ time, timeText (metric run "parse_ms") = .ok time) ∧
      ∃ time, timeText (metric run "total_ms") = .ok time := by
  constructor
  · rintro ⟨text, h⟩
    obtain ⟨files, hFiles, h⟩ := bind_eq_ok h
    obtain ⟨parseTime, hParse, h⟩ := bind_eq_ok h
    obtain ⟨totalTime, hTotal, -⟩ := bind_eq_ok h
    refine ⟨fun f hf => ?_, ⟨parseTime, hParse⟩, totalTime, hTotal⟩
    have hPath : f.file ∈ Text.ascending (run.findings.map Finding.file) :=
      Text.mem_ascending.2 (List.mem_map_of_mem hf)
    obtain ⟨lines, hLines⟩ := exists_mapM_iff.1 ⟨files, hFiles⟩ f.file hPath
    obtain ⟨found, hFound, -⟩ := bind_eq_ok hLines
    exact exists_mapM_iff.1 ⟨found, hFound⟩ f (List.mem_filter.2 ⟨hf, beq_self_eq_true _⟩)
  · rintro ⟨hLines, ⟨parseTime, hParse⟩, totalTime, hTotal⟩
    have hFiles : ∀ path ∈ Text.ascending (run.findings.map Finding.file),
        ∃ lines, fileLines run.findings path = .ok lines := by
      intro path _
      obtain ⟨found, hFound⟩ := exists_mapM_iff.2 fun f hf => hLines f (List.mem_of_mem_filter hf)
      exact ⟨_, by rw [fileLines, hFound]; rfl⟩
    obtain ⟨files, hFiles⟩ := exists_mapM_iff.2 hFiles
    rw [render, hFiles, hParse, hTotal]
    exact ⟨_, rfl⟩

theorem exists_render_of_subset {text : String} (h : render run = .ok text)
    (hSome : run'.findings ⊆ run.findings) (hMetrics : run'.metrics = run.metrics) :
    ∃ text', render run' = .ok text' := by
  obtain ⟨hLines, hTimes⟩ := exists_render_iff.1 ⟨text, h⟩
  have hMetric (key : String) : metric run' key = metric run key := by
    rw [metric, metric, hMetrics]
  rw [exists_render_iff, hMetric, hMetric]
  exact ⟨fun f hf => hLines f (hSome hf), hTimes⟩

end Summary

/-! ### Reports -/

namespace CommandLine

structure Report where
  settings : Settings
  rules : List Rule
  files : List String
  differences : String
  findings : List Finding
  printed : Printed
  after : FileTree

namespace Command

variable {c : Command} {reader : DocumentReader} {grammar : Grammar} {t t' : FileTree} {r : Report}
  {run run' : Run}

/-- A command reports findings: it loads settings, chooses rules, lists files, of which there have to
be some, finds what is in them, and tells it. -/
structure Reports (c : Command) (reader : DocumentReader) (grammar : Grammar) (t : FileTree) (r : Report) :
    Prop where
  loads : (c.loadSettings reader t).result = .ok r.settings
  chooses : r.settings.chooseRules Language.javascript.name c.patterns = .ok r.rules
  lists : (Project.files t c.paths).result = .ok r.files
  some : r.files ≠ []
  finds : (c.find grammar r.settings r.rules r.files).Ends t (r.differences, r.findings) r.after
  tells : (c.tell r.differences ⟨r.findings, r.files.length, r.rules.length,
    Project.noTimes⟩).Ends r.after r.printed r.after

theorem tell_files (differences : String) (run : Run) (t : FileTree) :
    (c.tell differences run t).2 = t :=
  Work.andThen_files rfl fun _ => Work.andThen_files rfl fun _ => rfl

/-- On the same files, a command has one report. -/
theorem Reports.unique {r' : Report} (h : c.Reports reader grammar t r)
    (h' : c.Reports reader grammar t r') : r = r' := by
  obtain ⟨settings, rules, files, differences, findings, printed, after⟩ := r
  obtain ⟨settings', rules', files', differences', findings', printed', after'⟩ := r'
  obtain rfl : settings = settings' := Except.ok.inj (h.loads.symm.trans h'.loads)
  obtain rfl : rules = rules' := Except.ok.inj (h.chooses.symm.trans h'.chooses)
  obtain rfl : files = files' := Except.ok.inj (h.lists.symm.trans h'.lists)
  obtain ⟨hFound, rfl⟩ := h.finds.unique h'.finds
  obtain ⟨rfl, rfl⟩ := Prod.mk.inj hFound
  obtain ⟨rfl, -⟩ := h.tells.unique h'.tells
  rfl

/-- **A report is what a command prints**, and the files are those that it leaves. -/
theorem run_of_reports (h : c.Reports reader grammar t r) :
    (c.run reader grammar).Ends t r.printed r.after := by
  have hRules : (c.runRules grammar r.settings r.rules).Ends t r.printed r.after := by
    refine Work.ends_bind.2 ⟨r.files, t, ⟨h.lists, rfl⟩, ?_⟩
    rw [if_neg (by simpa using h.some)]
    exact Work.ends_bind.2 ⟨_, r.after, h.finds, h.tells⟩
  refine Work.ends_bind.2 ⟨r.settings, t, ⟨h.loads, rfl⟩, ?_⟩
  rw [h.chooses]
  exact hRules

theorem call_of_reports {args : List String} (hArgs : Command.ofArguments args = .ok c)
    (h : c.Reports reader grammar t r) :
    ∃ log, call args reader grammar t = .ran log r.after ∧ log.result = .ok r.printed := by
  obtain ⟨hLog, hAfter⟩ := run_of_reports h
  refine ⟨(c.run reader grammar t).1, ?_, hLog⟩
  rw [call, hArgs, ← hAfter]

/-- A command that ends reports findings, or has nothing to print but a line about a fault and leaves
the files alone. -/
theorem exists_report_or_kept {printed : Printed} (h : (c.run reader grammar).Ends t printed t') :
    (printed.stdout = "" ∧ t' = t) ∨
      ∃ r, c.Reports reader grammar t r ∧ r.printed = printed ∧ r.after = t' := by
  obtain ⟨s, _, ⟨hLoads, rfl⟩, h⟩ := Work.ends_bind.1 h
  split at h
  next rules hChooses =>
    obtain ⟨files, _, ⟨hLists, rfl⟩, h⟩ := Work.ends_bind.1 h
    split at h
    next =>
      obtain ⟨rfl, rfl⟩ := Work.ends_done.1 h
      exact Or.inl ⟨rfl, rfl⟩
    next hSome =>
      obtain ⟨⟨differences, findings⟩, after, hFinds, hTells⟩ := Work.ends_bind.1 h
      obtain rfl : after = t' := (tell_files differences _ after).symm.trans hTells.2
      exact Or.inr ⟨⟨s, rules, files, differences, findings, printed, after⟩,
        ⟨hLoads, hChooses, hLists, by simpa using hSome, hFinds, hTells⟩, rfl, rfl⟩
  next e hFault =>
    split at h
    next =>
      obtain ⟨rfl, rfl⟩ := Work.ends_done.1 h
      exact Or.inl ⟨rfl, rfl⟩
    next => cases h.1

/-- **A command that ends** reports findings, or has nothing to print but a line about a fault. -/
theorem exists_report {printed : Printed} (h : (c.run reader grammar).Ends t printed t') :
    printed.stdout = "" ∨ ∃ r, c.Reports reader grammar t r ∧ r.printed = printed ∧ r.after = t' :=
  (exists_report_or_kept h).imp_left And.left

/-! ### The same command on other files -/

def settingsPath (c : Command) (t : FileTree) : Option String :=
  (c.settings.filter (!·.isEmpty)).or (Settings.find? t (c.paths.headD "."))

theorem loadSettings_eq (c : Command) (reader : DocumentReader) (t : FileTree) :
    c.loadSettings reader t =
      if c.paths.isEmpty && c.settings.all String.isEmpty then .failed .noPaths
      else Settings.loadWith reader t (c.settingsPath t) := by
  unfold loadSettings Project.settings settingsPath
  cases c.settings with
  | none => rfl
  | some path =>
    dsimp only
    rw [Option.filter_some]
    cases path.isEmpty <;> rfl

theorem loadSettings_alike (h : t.Alike t')
    (hFile : ∀ path ∈ c.settingsPath t, ∀ p, t.spot? path = some p → t'.get? p = t.get? p) :
    c.loadSettings reader t' = c.loadSettings reader t := by
  have hPath : c.settingsPath t' = c.settingsPath t := by
    rw [settingsPath, settingsPath, h.find?_eq]
  rw [loadSettings_eq, loadSettings_eq, hPath, h.loadWith_eq hFile]

theorem exists_tell {differences : String} (h : ∀ texts, ∃ report, c.render run texts = .ok report) :
    ∃ printed, (c.tell differences run).Ends t printed t := by
  obtain ⟨report, hReport⟩ := h _
  exact ⟨_, Work.ends_bind.2 ⟨_, t, ⟨result_readTexts t _, rfl⟩,
    Work.ends_bind.2 ⟨report, t, ⟨hReport, rfl⟩, rfl, rfl⟩⟩⟩

theorem exists_tell_of_subset {differences : String} {printed : Printed}
    (h : (c.tell differences run).Ends t printed t) (hSome : run'.findings ⊆ run.findings)
    (hMetrics : run'.metrics = run.metrics) :
    ∃ printed', (c.tell differences run').Ends t printed' t := by
  obtain ⟨texts, _, ⟨-, rfl⟩, h⟩ := Work.ends_bind.1 h
  obtain ⟨report, _, ⟨hReport, rfl⟩, -⟩ := Work.ends_bind.1 h
  refine exists_tell fun texts' => ?_
  change c.render run texts = .ok report at hReport
  unfold render at hReport ⊢
  split at hReport
  next format _ =>
    cases format with
    | json => exact ⟨_, rfl⟩
    | pretty => exact Summary.exists_render_of_subset hReport hSome hMetrics
  next => cases hReport

theorem find_of_gather {s : Settings} {rules : List Rule} {files : List String} {jobs : Int}
    {m : Nat} {all : List Finding} (hPlain : c.fix = false) (hJobs : c.jobs = some jobs)
    (hLimit : s.maxTotal = .int m)
    (h : (Logged.gather (Batch.ofFile grammar t s rules) files).result = .ok all) :
    (c.find grammar s rules files).Ends t ("", all.take m) t := by
  have hWorkers : c.workers = .ok (max 1 jobs) := by
    rw [workers, hJobs]
  unfold find
  rw [hPlain, if_neg Bool.false_ne_true]
  exact Work.ends_bind.2 ⟨_, t, ⟨hWorkers, rfl⟩,
    Work.ends_bind.2 ⟨_, t, ⟨Batch.run_of_gather hLimit h _, rfl⟩, rfl, rfl⟩⟩

theorem fixAll_of_find {s : Settings} {rules : List Rule} {files : List String} {shown : String}
    {left : List Finding} (hFix : c.fix = true)
    (h : (c.find grammar s rules files).Ends t (shown, left) t') :
    (fixAll (Fixing.run grammar s rules) c.diff (files.flatMap t.readable)).Ends t
      (shown, left) t' := by
  unfold find at h
  rw [hFix, if_pos rfl] at h
  obtain ⟨texts, _, ⟨hTexts, rfl⟩, h⟩ := Work.ends_bind.1 h
  obtain rfl := Except.ok.inj ((result_readTexts t files).symm.trans hTexts)
  exact h

end Command

/-- **A command without fixing, after the same command with fixing**, finds what was left, up to the
limit of findings, and leaves the files alone. If there is not more than that, both print the same and
have the same exit code. The settings may not be in one of the files, and the count of workers, for
which only the second command asks, has to be a number. -/
theorem plain_after_fix (reader : DocumentReader) (grammar : Grammar) (t : FileTree)
    (args args' : List String) (c : Command) (jobs : Int) (m : Nat) (r : Report)
    (hArgs : Command.ofArguments args = .ok c) (hFix : c.fix = true) (hWrites : c.diff = false)
    (hJobs : c.jobs = some jobs)
    (hArgs' : Command.ofArguments args' = .ok { c with fix := false })
    (hReports : c.Reports reader grammar t r) (hLimit : r.settings.maxTotal = .int m)
    (hSettings : ∀ path ∈ c.settingsPath t, ∀ file ∈ r.files, t.spot? file ≠ t.spot? path) :
    ∃ r' log log', { c with fix := false }.Reports reader grammar r.after r' ∧
      call args reader grammar t = .ran log r.after ∧ log.result = .ok r.printed ∧
      call args' reader grammar r.after = .ran log' r.after ∧ log'.result = .ok r'.printed ∧
      r'.findings = r.findings.take m ∧ (r.findings.length ≤ m → r'.printed = r.printed) := by
  have hFixed := Command.fixAll_of_find hFix hReports.finds
  rw [hWrites] at hFixed
  obtain ⟨hShown, hAlike, hOther, hLeft⟩ :=
    gather_fixAll (Settings.chooseRules_subset hReports.chooses) hFixed
  obtain ⟨printed, hTells⟩ : ∃ printed, (c.tell r.differences ⟨r.findings.take m, r.files.length,
      r.rules.length, Project.noTimes⟩).Ends r.after printed r.after :=
    Command.exists_tell_of_subset hReports.tells (List.take_subset m r.findings) rfl
  have hLoads : c.loadSettings reader r.after = c.loadSettings reader t := by
    refine Command.loadSettings_alike hAlike fun path hPath p hSpot => hOther p ?_
    exact fun file hFile hSame => hSettings path hPath file hFile (hSame.trans hSpot.symm)
  have hLists : (Project.files r.after c.paths).result = .ok r.files :=
    (hAlike.list_eq _ _).symm.trans hReports.lists
  have hPlain : { c with fix := false }.Reports reader grammar r.after
      { r with findings := r.findings.take m, printed } :=
    { loads := (congrArg Logged.result hLoads).trans hReports.loads
      chooses := hReports.chooses
      lists := hLists
      some := hReports.some
      finds := hShown ▸ Command.find_of_gather rfl hJobs hLimit hLeft
      tells := hTells }
  obtain ⟨log, hCall, hLog⟩ := Command.call_of_reports hArgs hReports
  obtain ⟨log', hCall', hLog'⟩ := Command.call_of_reports hArgs' hPlain
  refine ⟨_, log, log', hPlain, hCall, hLog, hCall', hLog', rfl, ?_⟩
  intro hFew
  rw [List.take_of_length_le hFew] at hTells
  exact (hTells.unique hReports.tells).1

/-! ### Taking options -/

namespace Reading

variable {kind : OptionKind} (reading : Reading) (word : String) (args : List Argument)

theorem takeAll_flag (h : kind.arity = .flag) :
    reading.takeAll (.option kind none :: args) = reading.take kind [] >>= fun r => r.takeAll args := by
  conv_lhs => unfold takeAll
  rw [h]

theorem takeAll_single (h : kind.arity = .single) :
    reading.takeAll (.option kind none :: .word word :: args) =
      reading.take kind [word] >>= fun r => r.takeAll args := by
  conv_lhs => unfold takeAll
  rw [h]

theorem takeAll_several (h : kind.arity = .several) :
    reading.takeAll (.option kind none :: .word word :: args) =
      reading.take kind (word :: (spanWords args).1) >>= fun r => r.takeAll (spanWords args).2 := by
  conv_lhs => unfold takeAll
  rw [h]

end Reading

/-! ### A file under two names -/

section TwoNames

open Fixing (assignment assignmentTree shown)
open Utf8 (encode)

/-- Settings with a limit of one finding, in a file and in all. -/
def narrow : Settings := { Settings.standard with maxPerFile := .int 1, maxTotal := .int 1 }

def limits : List UInt8 := encode "max_findings_per_file: 1\nmax_total_findings: 1\n".toList

def readLimits : DocumentReader := fun data =>
  .ok (if data = limits then
    some (.object [("max_findings_per_file", .int 1), ("max_total_findings", .int 1)]) else none)

/-- A folder with the assignment and another text, below one that has the limits. -/
def folder (text : String) : FileTree :=
  ⟨["work", "lib"], [(["work", ".spacelint.yml"], .file limits),
    (["work", "lib", "a.js"], .file (encode assignment)),
    (["work", "lib", "b.js"], .file (encode text.toList))]⟩

def knowing : Grammar := fun text => if text = assignment then some assignmentTree else none

def twice : Command := { paths := ["a.js", "./a.js", "b.js"], fix := true }

def ending : Finding :=
  ⟨TrailingSpaces.id, TrailingSpaces.message, "b.js", 1, 3, .text "warn", some [⟨1, 3, []⟩],
    .object [("node_type", .text "program")], some 1, some 2⟩

theorem run_ending : (Fixing.run knowing narrow Standard.rules "b.js" "b  ".toList).result =
    .ok ("b".toList, []) := by
  have hBefore : (Analysis.run knowing narrow Standard.rules "b.js" "b  ".toList).result =
      .ok [ending] := by
    have hGather : (Logged.gather (Analysis.ofRule narrow
        (Analysis.viewOf "b.js" "b  ".toList none)) Standard.rules).result = .ok [ending] := by cbv
    rw [Analysis.result_run rfl hGather]
    cbv
  have hAfter : (Analysis.run knowing narrow Standard.rules "b.js" "b".toList).result = .ok [] := by
    have hGather : (Logged.gather (Analysis.ofRule narrow
        (Analysis.viewOf "b.js" "b".toList none)) Standard.rules).result = .ok [] := by cbv
    rw [Analysis.result_run rfl hGather]
    cbv
  have hStep : Fixing.step? "b  ".toList [ending] = .ok (some "b".toList) := by cbv
  rw [Fixing.run_eq_runWith]
  exact Fixing.runWith_of_step hBefore hStep hAfter rfl

theorem find_twice : (twice.find knowing narrow Standard.rules ["./a.js", "a.js", "b.js"]).Ends
    (folder "b  ") ("", [shown.inFile "./a.js", shown]) (folder "b") := by
  have hTexts : (readTexts (folder "b  ") ["./a.js", "a.js", "b.js"]).result =
      .ok [("./a.js", assignment), ("a.js", assignment), ("b.js", "b  ".toList)] := by
    have hA (path : String) (hSpot : (folder "b  ").spot? path = some ["work", "lib", "a.js"]) :
        (folder "b  ").readText? path = some assignment := FileTree.readText?_of_get? hSpot rfl
    have hB : (folder "b  ").readText? "b.js" = some "b  ".toList :=
      FileTree.readText?_of_get? (p := ["work", "lib", "b.js"]) rfl rfl
    rw [result_readTexts]
    simp only [List.flatMap_cons, FileTree.readable, hA "./a.js" rfl, hA "a.js" rfl, hB]
    rfl
  have hHere : (Fixing.run knowing narrow Standard.rules "a.js" assignment).result =
      .ok (assignment, [shown]) := Fixing.run_assignment rfl (.int 1)
  have hThere : (Fixing.run knowing narrow Standard.rules "./a.js" assignment).result =
      .ok (assignment, [shown.inFile "./a.js"]) := by
    rw [Fixing.run_inFile knowing narrow (List.Subset.refl _) "./a.js" "a.js", hHere]
    rfl
  have hKept (path : String) : (deliver false path assignment assignment).Ends (folder "b  ") ""
      (folder "b  ") := by
    rw [deliver, if_pos rfl]
    exact ⟨rfl, rfl⟩
  have hLast : (fixAll (Fixing.run knowing narrow Standard.rules) false
      [("b.js", "b  ".toList)]).Ends (folder "b  ") ("", []) (folder "b") :=
    ends_fixAll_cons.2 ⟨_, _, "", folder "b", "", [], run_ending, ⟨rfl, rfl⟩, ⟨rfl, rfl⟩, rfl, rfl⟩
  have hSecond : (fixAll (Fixing.run knowing narrow Standard.rules) false
      [("a.js", assignment), ("b.js", "b  ".toList)]).Ends (folder "b  ") ("", [shown])
        (folder "b") :=
    ends_fixAll_cons.2 ⟨_, _, "", _, "", [], hHere, hKept _, hLast, rfl, rfl⟩
  exact Work.ends_bind.2 ⟨_, folder "b  ", ⟨hTexts, rfl⟩,
    ends_fixAll_cons.2 ⟨_, _, "", _, "", [shown], hThere, hKept _, hSecond, rfl, rfl⟩⟩

/-- The limits are found above the working folder. -/
theorem settingsPath_twice (text : String) :
    twice.settingsPath (folder text) = some "/work/.spacelint.yml" := by
  have hNamed : (folder text).absolute "a.js" = ["work", "lib", "a.js"] := rfl
  have hStart : Settings.searchStart (folder text) "a.js" = ["work", "lib"] := by
    rw [Settings.searchStart, hNamed]
    rfl
  show Settings.find? (folder text) "a.js" = _
  rw [Settings.find?, hStart]
  rfl

theorem loadSettings_twice (text : String) :
    (twice.loadSettings readLimits (folder text)).result = .ok narrow := by
  have hLocate : (folder text).locate? "/work/.spacelint.yml" =
      some (["work", ".spacelint.yml"], .file limits) := rfl
  rw [Command.loadSettings_eq, settingsPath_twice, if_neg (by decide), Settings.loadWith_of_file hLocate,
    readLimits, if_pos rfl]
  rfl

/-- The space that nothing mends is reported under each name. -/
theorem exists_report_twice : ∃ printed, twice.Reports readLimits knowing (folder "b  ")
    ⟨narrow, Standard.rules, ["./a.js", "a.js", "b.js"], "", [shown.inFile "./a.js", shown],
      printed, folder "b"⟩ := by
  obtain ⟨printed, hTells⟩ : ∃ printed, (twice.tell "" ⟨[shown.inFile "./a.js", shown], 3, 2,
      Project.noTimes⟩).Ends (folder "b") printed (folder "b") := by
    refine Command.exists_tell fun _ => Summary.exists_render_iff.2
      ⟨fun f hf => ?_, ⟨_, rfl⟩, _, rfl⟩
    rcases List.mem_pair.1 hf with rfl | rfl <;> exact ⟨_, rfl⟩
  exact ⟨printed, loadSettings_twice _, by cbv, rfl, List.cons_ne_nil _ _, find_twice, hTells⟩

theorem ofArguments_twice (fix : Bool) : Command.ofArguments
    (["--paths", "a.js", "./a.js", "b.js"] ++ if fix then ["--fix"] else []) =
      .ok { twice with fix } := by
  have hSorted : sortAll (["--paths", "a.js", "./a.js", "b.js"] ++ if fix then ["--fix"] else []) =
      .option .paths none :: .word "a.js" :: .word "./a.js" :: .word "b.js" ::
        if fix then [.option .fix none] else [] := by
    cases fix <;> rfl
  have hTaken : Reading.takeAll {} (.option .paths none :: .word "a.js" :: .word "./a.js" ::
      .word "b.js" :: if fix then [.option .fix none] else []) =
        .ok ⟨{ twice with fix }, true, false⟩ := by
    rw [Reading.takeAll_several _ _ _ rfl]
    cases fix with
    | false =>
      show Reading.takeAll _ [] = _
      rw [Reading.takeAll]
      rfl
    | true =>
      show Reading.takeAll _ [.option .fix none] = _
      rw [Reading.takeAll_flag _ _ rfl]
      show Reading.takeAll _ [] = _
      rw [Reading.takeAll]
      rfl
  rw [Command.ofArguments, hSorted, hTaken]
  cases fix <;> rfl

/-- Of the two findings, the limit leaves the first one to be told again. -/
theorem plain_after_fix_twice :
    ∃ printed r' log log', { twice with fix := false }.Reports readLimits knowing (folder "b") r' ∧
      call ["--paths", "a.js", "./a.js", "b.js", "--fix"] readLimits knowing (folder "b  ") =
        .ran log (folder "b") ∧ log.result = .ok printed ∧
      call ["--paths", "a.js", "./a.js", "b.js"] readLimits knowing (folder "b") =
        .ran log' (folder "b") ∧
      log'.result = .ok r'.printed ∧ r'.findings = [shown.inFile "./a.js"] := by
  obtain ⟨printed, hReports⟩ := exists_report_twice
  have hSettings : ∀ path ∈ twice.settingsPath (folder "b  "), ∀ file ∈ ["./a.js", "a.js", "b.js"],
      (folder "b  ").spot? file ≠ (folder "b  ").spot? path := by
    intro path hPath
    obtain rfl := Option.some.inj (hPath.symm.trans (settingsPath_twice "b  "))
    decide
  obtain ⟨r', log, log', hPlain, hFixing, hLog, hAgain, hLog', hFound, -⟩ :=
    plain_after_fix readLimits knowing (folder "b  ") _ _ twice 1 1 _ (ofArguments_twice true) rfl rfl rfl
      (ofArguments_twice false) hReports rfl hSettings
  exact ⟨printed, r', log, log', hPlain, hFixing, hLog, hAgain, hLog', hFound⟩

end TwoNames

end CommandLine

end TidySpace
