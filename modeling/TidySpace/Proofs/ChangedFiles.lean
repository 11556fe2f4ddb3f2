import TidySpace.Proofs.Reruns

/-! # Files that a call changes

Only a command that fixes files and does not show the differences instead writes anything. What it
writes are files that were listed and hold a text: each of them then holds, byte by byte, what the text
was fixed to, under whichever of its names it was listed, and everything else in the tree is as it was
(`files_of_call`).
-/

namespace TidySpace.CommandLine

open Utf8 (encode)

/-! ### Calls that leave the files alone -/

namespace Command

variable {c : Command} {reader : DocumentReader} {grammar : Grammar} {t : FileTree}

theorem find_files (h : c.fix = false ∨ c.diff = true) (s : Settings) (rules : List Rule)
    (files : List String) : (c.find grammar s rules files t).2 = t := by
  rw [find]
  by_cases hFix : c.fix = true
  · rw [if_pos hFix, h.resolve_left (by rw [hFix]; decide)]
    exact Work.andThen_files rfl fun texts => fixAll_shown_files texts t
  · rw [if_neg hFix]
    exact Work.andThen_files rfl fun _ => Work.andThen_files rfl fun _ => rfl

theorem runRules_files (h : c.fix = false ∨ c.diff = true) (s : Settings) (rules : List Rule) :
    (c.runRules grammar s rules t).2 = t := by
  refine Work.andThen_files rfl fun files => ?_
  by_cases hNone : files.isEmpty = true
  · rw [if_pos hNone]
    rfl
  · rw [if_neg hNone]
    exact Work.andThen_files (find_files h s rules files) fun found => tell_files found.1 _ t

theorem run_files (h : c.fix = false ∨ c.diff = true) : (c.run reader grammar t).2 = t := by
  refine Work.andThen_files rfl fun s => ?_
  cases s.chooseRules Language.javascript.name c.patterns with
  | ok rules => exact runRules_files h s rules
  | error e =>
    cases hFault : e.isSettingsFault with
    | true =>
      simp only [hFault, if_true]
      rfl
    | false =>
      simp only [hFault]
      rfl

end Command

/-! ### Files that were fixed -/

variable {fix : String → List Char → Logged (List Char × List Finding)}
variable {reader : DocumentReader} {grammar : Grammar} {c : Command} {t t' : FileTree} {r : Report}

/-- Where fixing files has a result, it has one for each text. -/
theorem exists_fixed_of_fixAll {showOnly : Bool} {texts : Texts} {shown : String}
    {left : List Finding} (h : (fixAll fix showOnly texts).Ends t (shown, left) t') :
    ∀ e ∈ texts, ∃ fixed here, (fix e.1 e.2).result = .ok (fixed, here) := by
  induction texts generalizing t shown left with
  | nil => exact fun e he => absurd he List.not_mem_nil
  | cons e rest ih =>
    obtain ⟨fixed, here, _, _, _, _, hFixed, -, hRest, -, -⟩ := ends_fixAll_cons.1 h
    intro e' he'
    rcases List.mem_cons.1 he' with rfl | he'
    · exact ⟨fixed, here, hFixed⟩
    · exact ih hRest e' he'

/-- The file at a path was fixed: a listed name leads there, it held a text, and it holds what this
text is fixed to under the name. -/
structure Report.FixedAt (r : Report) (grammar : Grammar) (t : FileTree) (file : String) (p : Path) :
    Prop where
  listed : file ∈ r.files
  leads : t.spot? file = some p
  holds : ∃ text fixed left, t.get? p = some (.file (encode text)) ∧
    (Fixing.run grammar r.settings r.rules file text).result = .ok (fixed, left) ∧
    r.after.get? p = some (.file (encode fixed))

theorem Command.rewrites_of_reports (h : c.Reports reader grammar t r) (hFix : c.fix = true)
    (hWrites : c.diff = false) :
    (∀ file ∈ r.files, ∀ text, t.readText? file = some text → ∃ p, r.FixedAt grammar t file p) ∧
      ∀ p, r.after.get? p = t.get? p ∨ ∃ file, r.FixedAt grammar t file p := by
  have hRules : r.rules ⊆ Standard.rules := Settings.chooseRules_subset h.chooses
  have hFixed := fixAll_of_find hFix h.finds
  rw [hWrites] at hFixed
  obtain ⟨-, -, hHeld, hOther, -⟩ := fixAll_targets hRules hFixed
  have hAll {file : String} {text : List Char} {p : Path} (hFile : file ∈ r.files)
      (hText : t.readText? file = some text) (hSpot : t.spot? file = some p) :
      r.FixedAt grammar t file p := by
    have hMem : (file, text) ∈ r.files.flatMap t.readable :=
      FileTree.mem_flatMap_readable.2 ⟨hFile, hText⟩
    obtain ⟨fixed, left, hRun⟩ := exists_fixed_of_fixAll hFixed _ hMem
    obtain ⟨q, hSpot', hGet⟩ := FileTree.get?_of_readText? hText
    obtain rfl := Option.some.inj (hSpot.symm.trans hSpot')
    obtain ⟨rfl, -⟩ := Fixing.eq_target hRules hRun
    exact ⟨hFile, hSpot, text, _, left, hGet, hRun, hHeld _ hMem p hSpot⟩
  constructor
  · intro file hFile text hText
    obtain ⟨p, hSpot, -⟩ := FileTree.get?_of_readText? hText
    exact ⟨p, hAll hFile hText hSpot⟩
  · intro p
    by_cases hListed : ∃ e ∈ r.files.flatMap t.readable, t.spot? e.1 = some p
    · obtain ⟨e, he, hSpot⟩ := hListed
      obtain ⟨hFile, hText⟩ := FileTree.mem_flatMap_readable.1 he
      exact Or.inr ⟨e.1, hAll hFile hText hSpot⟩
    · exact Or.inl (hOther p fun e he hSpot => hListed ⟨e, he, hSpot⟩)

/-! ### The call -/

/-- **What a call does to the files.** Without fixing, and where differences are shown, it does nothing
to them, however it ends. A call that fixes files and ends without a report has left them alone, and
with a report each listed file that holds a text was fixed, and what was not fixed is as it was. -/
theorem files_of_call (reader : DocumentReader) (grammar : Grammar) (t t' : FileTree)
    (args : List String) (c : Command) (log : Logged Printed) (hArgs : Command.ofArguments args = .ok c)
    (hCall : call args reader grammar t = .ran log t') :
    (c.fix = false ∨ c.diff = true → t' = t) ∧
      ∀ printed, log.result = .ok printed → c.fix = true → c.diff = false →
        (printed.stdout = "" ∧ t' = t) ∨
          ∃ r, c.Reports reader grammar t r ∧ r.printed = printed ∧ r.after = t' ∧
            (∀ file ∈ r.files, ∀ text, t.readText? file = some text →
              ∃ p, r.FixedAt grammar t file p) ∧
            ∀ p, t'.get? p = t.get? p ∨ ∃ file, r.FixedAt grammar t file p := by
  rw [call, hArgs] at hCall
  obtain ⟨hLog, hFiles⟩ := Ending.ran.inj hCall
  constructor
  · intro hPlain
    rw [← hFiles]
    exact Command.run_files hPlain
  · intro printed hEnds hFix hWrites
    have hRun : (c.run reader grammar).Ends t printed t' := ⟨hLog ▸ hEnds, hFiles⟩
    rcases Command.exists_report_or_kept hRun with hKept | ⟨r, hReports, hPrinted, rfl⟩
    · exact Or.inl hKept
    · exact Or.inr ⟨r, hReports, hPrinted, rfl, Command.rewrites_of_reports hReports hFix hWrites⟩

/-- Of three names, two lead to one file, which stays; the third leads to the file that changes. -/
theorem files_of_call_twice : ∃ log printed r,
    call ["--paths", "a.js", "./a.js", "b.js", "--fix"] readLimits knowing (folder "b  ") =
        .ran log (folder "b") ∧ log.result = .ok printed ∧
      twice.Reports readLimits knowing (folder "b  ") r ∧ r.after = folder "b" ∧
      (∀ file ∈ r.files, ∀ text, (folder "b  ").readText? file = some text →
        ∃ p, r.FixedAt knowing (folder "b  ") file p) ∧
      ∀ p, (folder "b").get? p = (folder "b  ").get? p ∨
        ∃ file, r.FixedAt knowing (folder "b  ") file p := by
  obtain ⟨printed, hReports⟩ := exists_report_twice
  have hArgs : Command.ofArguments ["--paths", "a.js", "./a.js", "b.js", "--fix"] = .ok twice :=
    ofArguments_twice true
  obtain ⟨log, hCall, hLog⟩ := Command.call_of_reports hArgs hReports
  obtain ⟨-, hFixes⟩ := files_of_call readLimits knowing (folder "b  ") (folder "b") _ twice _
    hArgs hCall
  rcases hFixes printed hLog rfl rfl with ⟨-, hSame⟩ | ⟨r, hOwn, -, hOwnAfter, hAll, hKept⟩
  · -- The text of the third name is another one.
    have hText (text : String) : (folder text).readText? "b.js" = some text.toList :=
      FileTree.readText?_of_get? (p := ["work", "lib", "b.js"]) rfl rfl
    have hRead := (hText "b").symm.trans (hSame ▸ hText "b  ")
    exact absurd hRead (by decide)
  · exact ⟨_, printed, r, hCall, hLog, hOwn, hOwnAfter, hAll, hKept⟩

end TidySpace.CommandLine
