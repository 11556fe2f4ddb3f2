import TidySpace.Proofs.FileNames
import TidySpace.Proofs.Positions
import TidySpace.Proofs.Tokens

/-! # Where findings are shown

A finding is shown at a place that its rule chooses: behind an opening brace, at a closing brace, or
where a trailing run begins. What it covers ends at an offset. Both are read off one text, and there
the place is never behind the position of that offset (`Analysis.shownBy_of_run`), whatever the tree
was like: tokens are never empty, and a trailing run does not leave its line.
-/

namespace TidySpace

/-- A finding is shown at a place of a text. -/
structure Finding.ShownAt (f : Finding) (p : Position) : Prop where
  line : f.line = some (p.line : Int)
  column : f.column = some (p.column : Int)
  line_pos : 1 ≤ p.line
  column_pos : 1 ≤ p.column

/-- A finding is shown at some place by the end of what it covers in a text. -/
def Finding.ShownBy (f : Finding) (text : List Char) : Prop :=
  ∃ p, f.ShownAt p ∧ p ≤ (Buffer.ofText text).position f.stop

theorem Position.le_refl (p : Position) : p ≤ p := Or.inr ⟨rfl, Nat.le_refl _⟩

/-! ### Trailing runs -/

namespace TrailingRun

variable {text : List Char} {skip : Bool} {run : TrailingRun}

theorem ofLine?_place {l : Text.Line} (h : ofLine? skip l = some run) :
    run.line = l.number ∧ run.column = (Text.dropTrailing Text.isGap l.content).length + 1 ∧
      run.stop = l.start + Utf8.width l.content := by
  unfold ofLine? at h
  dsimp only at h
  split at h
  next => cases h
  next =>
    cases h
    exact ⟨rfl, rfl, rfl⟩

theorem position_stop_of_mem_scan (h : run ∈ scan text skip) : 1 ≤ run.line ∧ 1 ≤ run.column ∧
    ∃ column, run.column < column ∧
      (Buffer.ofText text).position run.stop = ⟨run.line, column⟩ := by
  obtain ⟨l, hLine, hRun⟩ := List.mem_filterMap.1 h
  obtain ⟨front, rest, hPieces, hStart, hNumber⟩ := Text.mem_place hLine
  obtain ⟨hRunLine, hRunColumn, hRunStop⟩ := ofLine?_place hRun
  obtain ⟨mid, hContent, hSome, -⟩ := ofLine?_eq_some hRun
  have hEnd := (Buffer.spot_of_pieces hPieces l.content.length).position_eq
  dsimp only at hEnd
  rw [List.take_length] at hEnd
  have hStop : run.stop = Utf8.width (Text.joined front) + Utf8.width l.content := by omega
  have hLength := congrArg List.length hContent
  have hShort := List.length_pos_iff.2 hSome
  rw [List.length_append] at hLength
  refine ⟨by omega, by omega, l.content.length + 1, by omega, ?_⟩
  rw [hStop, hEnd, hRunLine, hNumber, Nat.add_comm 1]

/-- **A trailing run begins on the line on which it ends**, and not behind its end. -/
theorem place_of_mem_scan (h : run ∈ scan text skip) :
    1 ≤ run.line ∧ 1 ≤ run.column ∧
      (⟨run.line, run.column⟩ : Position) ≤ (Buffer.ofText text).position run.stop := by
  obtain ⟨hLine, hColumn, column, hLt, hStop⟩ := position_stop_of_mem_scan h
  rw [hStop]
  exact ⟨hLine, hColumn, Or.inr ⟨rfl, Nat.le_of_lt hLt⟩⟩

end TrailingRun

/-! ### Tokens -/

theorem Source.start_lt_stop {text : List Char} {tree : Option Node} {t : Token}
    (h : t ∈ (Source.ofText text tree).tokens) : t.start < t.stop := by
  cases tree with
  | none => exact absurd h List.not_mem_nil
  | some root =>
    obtain ⟨n, hn, rfl⟩ := List.mem_map.1 h
    exact Int.ofNat_lt.2 (Node.of_mem_tokensOf hn).2

theorem Source.positions_of_mem {text : List Char} {tree : Option Node} {t : Token}
    (h : t ∈ (Source.ofText text tree).tokens) :
    t.startPos = (Buffer.ofText text).position t.start ∧
      t.stopPos = (Buffer.ofText text).position t.stop := by
  obtain ⟨_, start, stop, rfl⟩ := Source.eq_token_of_mem h
  exact ⟨rfl, rfl⟩

/-! ### Reports -/

theorem Report.shownBy_finding {r : Report} {text : List Char} {p : Position}
    (hPlace : r.location.lineColumn (Buffer.ofText text) = (↑p.line, ↑p.column))
    (hPos : 1 ≤ p.line ∧ 1 ≤ p.column) (rule file : String) (severity : Value)
    (hLe : p ≤ (Buffer.ofText text).position
      (r.finding rule file severity (Buffer.ofText text)).stop) :
    (r.finding rule file severity (Buffer.ofText text)).ShownBy text := by
  refine ⟨p, ⟨?_, ?_, hPos.1, hPos.2⟩, hLe⟩
  · show some (r.location.lineColumn (Buffer.ofText text)).1 = _
    rw [hPlace]
  · show some (r.location.lineColumn (Buffer.ofText text)).2 = _
    rw [hPlace]

theorem TrailingSpaces.shownBy_report {text : List Char} {skip : Bool} {run : TrailingRun}
    (h : run ∈ TrailingRun.scan text skip) (id file : String) (severity : Value) :
    ((report run).finding id file severity (Buffer.ofText text)).ShownBy text := by
  obtain ⟨hLine, hColumn, hLe⟩ := TrailingRun.place_of_mem_scan h
  exact Report.shownBy_finding (p := ⟨run.line, run.column⟩) rfl ⟨hLine, hColumn⟩ _ _ _ hLe

namespace CurlySpacing

variable {text : List Char} {tree : Option Node} {o : CurlyOptions} {c : BraceConstruct} {r : Report}

/-- **The curly rule shows** the position behind an opening brace, where the brace ends, or that of a
closing brace, which ends further on. -/
theorem shownBy_of_mem_reports (h : r ∈ reports (Source.ofText text tree) o c) (id file : String)
    (severity : Value) : (r.finding id file severity (Buffer.ofText text)).ShownBy text := by
  obtain ⟨t, hBraces, h⟩ := braces_of_mem_reports h
  have hFound := found_of_braces? hBraces
  rcases h with h | h
  · obtain ⟨fault, -, rfl⟩ := Option.map_eq_some_iff.1 h
    obtain ⟨-, hStop⟩ := Source.positions_of_mem hFound.opening_mem
    refine Report.shownBy_finding (p := t.opening.stopPos) rfl ?_ _ _ _ ?_
    · rw [hStop]
      exact Buffer.position_pos text _
    · rw [hStop]
      exact Position.le_refl _
  · obtain ⟨fault, -, rfl⟩ := Option.map_eq_some_iff.1 h
    obtain ⟨hStart, -⟩ := Source.positions_of_mem hFound.closing_mem
    refine Report.shownBy_finding (p := t.closing.startPos) rfl ?_ _ _ _ ?_
    · rw [hStart]
      exact Buffer.position_pos text _
    · rw [hStart]
      exact Buffer.position_mono text (Int.le_of_lt (Source.start_lt_stop hFound.closing_mem))

end CurlySpacing

/-! ### Analyses -/

theorem Rule.Makes.shownBy {rule : Rule} (hRule : rule ∈ Standard.rules) {path : String}
    {text : List Char} {tree : Option Node} {f : Finding}
    (h : rule.Makes (Analysis.viewOf path text tree) f) : f.ShownBy text := by
  obtain ⟨r, id, severity, rfl, ⟨-, skip, run, hRun, rfl⟩ | ⟨-, root, o, c, -, hr⟩⟩ :=
    h.exists_report hRule
  · exact TrailingSpaces.shownBy_report hRun id path severity
  · exact CurlySpacing.shownBy_of_mem_reports hr id path severity

namespace Analysis

variable {grammar : Grammar} {s : Settings} {rules : List Rule} {path : String} {text : List Char}
  {findings : List Finding}

/-- **In the text that was analysed, no finding ends before the place that it shows.** -/
theorem shownBy_of_run (hRules : rules ⊆ Standard.rules) (hCheck : s.check rules = .ok ())
    (hRun : (run grammar s rules path text).result = .ok findings) :
    ∀ f ∈ findings, f.ShownBy text := by
  intro f hf
  obtain ⟨rule, hRule, tree, -, hMakes⟩ := made_of_run hRules hCheck hRun f hf
  exact hMakes.shownBy (hRules hRule)

theorem file_eq_of_run (hRules : rules ⊆ Standard.rules)
    (hRun : (run grammar s rules path text).result = .ok findings) :
    ∀ f ∈ findings, f.file = path := by
  have hNamed := run_inFile (s := s) grammar hRules path path text
  rw [hRun] at hNamed
  have hSame : findings = findings.map (Finding.inFile path) := Except.ok.inj hNamed
  intro f hf
  rw [hSame] at hf
  obtain ⟨g, -, rfl⟩ := List.mem_map.1 hf
  rfl

end Analysis

end TidySpace
