import TidySpace.Proofs.Passes
import TidySpace.Proofs.StrippedLines
import TidySpace.Proofs.SuppressedLines

/-! # Stripping lines in passes

With a limit on the findings of a file, a pass deletes as many trailing runs as the limit allows, the
first ones that no comment suppresses. The next pass sees a new text, whose lines may have met. Both
passes together strip the lines that a single pass with the two limits added up would strip
(`Text.strip_strip`): a line that has been stripped has no run, lines that meet leave
none behind, and whether a comment suppresses the run of another line is still said by its own content.
So ten passes strip ten times as many lines as the limit (`Fixing.stripped_of_run`).
-/

namespace TidySpace

open Utf8 (width encode)

namespace Text

variable {picked : List Char → Bool}

/-! ### Stripping some lines, and then some more -/

theorem exists_stripFirst_cons (picked : List Char → Bool) (k : Nat) (content : List Char) :
    ∃ content' k', (IsPlain content → IsPlain content') ∧ ∀ ending ps,
      stripFirst picked k ((content, ending) :: ps) =
        (content', ending) :: stripFirst picked k' ps := by
  by_cases hPicked : picked content = true
  · cases k with
    | zero => exact ⟨content, 0, id, fun ending ps => by rw [stripFirst_zero, stripFirst_zero]⟩
    | succ k =>
      exact ⟨content.rdropWhile isGap, k, isPlain_rdropWhile, fun _ => stripFirst_of_picked hPicked k⟩
  · exact ⟨content, k, id, fun _ => stripFirst_of_not hPicked k⟩

theorem areLines_stripFirst (k : Nat) {ps : List (List Char × LineEnd)} (h : AreLines ps) :
    AreLines (stripFirst picked k ps) := by
  induction h generalizing k with
  | @last content hPlain =>
    obtain ⟨content', k', hPlain', hCons⟩ := exists_stripFirst_cons picked k content
    rw [hCons]
    cases k' <;> exact .last (hPlain' hPlain)
  | @cons content ending ps hPlain hEnd _ ih =>
    obtain ⟨content', k', hPlain', hCons⟩ := exists_stripFirst_cons picked k content
    rw [hCons]
    exact .cons (hPlain' hPlain) hEnd (ih k')

/-- A text of which the first `n` lines that are picked are stripped. -/
def strip (picked : List Char → Bool) (n : Nat) (text : List Char) : List Char :=
  joined (stripFirst picked n (pieces text))

@[simp] theorem strip_zero (text : List Char) : strip picked 0 text = text := by
  rw [strip, stripFirst_zero, joined_pieces]

section Picked

variable (hPicked : ∀ content, picked content = true → content.rdropWhile isGap ≠ content)
include hPicked

theorem picked_rdropWhile (content : List Char) : picked (content.rdropWhile isGap) = false :=
  Bool.eq_false_iff.2 fun h => hPicked _ h (List.rdropWhile_idempotent isGap content)

theorem picked_nil : picked [] = false := picked_rdropWhile hPicked []

/-- **Stripping some lines, and then some more**, is stripping as many at once. -/
theorem stripFirst_stripFirst (j k : Nat) (ps : List (List Char × LineEnd)) :
    stripFirst picked k (stripFirst picked j ps) = stripFirst picked (j + k) ps := by
  induction ps generalizing j with
  | nil => cases j <;> cases k <;> rfl
  | cons p ps ih =>
    by_cases hp : picked p.1 = true
    · cases j with
      | zero => rw [stripFirst_zero, Nat.zero_add]
      | succ j =>
        have hStripped : ¬ picked (p.1.rdropWhile isGap) = true := by
          rw [picked_rdropWhile hPicked]
          exact Bool.false_ne_true
        rw [stripFirst_of_picked hp, stripFirst_of_not hStripped, ih, Nat.add_right_comm,
          stripFirst_of_picked hp]
    · rw [stripFirst_of_not hp, stripFirst_of_not hp, stripFirst_of_not hp, ih]

theorem countP_stripFirst (k : Nat) (ps : List (List Char × LineEnd)) :
    (stripFirst picked k ps).countP (fun p => picked p.1) = ps.countP (fun p => picked p.1) - k := by
  induction ps generalizing k with
  | nil => cases k <;> simp [stripFirst]
  | cons p ps ih =>
    by_cases hp : picked p.1 = true
    · cases k with
      | zero => rw [stripFirst_zero, Nat.sub_zero]
      | succ k =>
        rw [stripFirst_of_picked hp, List.countP_cons, List.countP_cons, ih, if_pos hp,
          picked_rdropWhile hPicked, if_neg Bool.false_ne_true]
        omega
    · rw [stripFirst_of_not hp, List.countP_cons, List.countP_cons, ih, if_neg hp, Nat.add_zero,
        Nat.add_zero]

theorem countP_met (ps : List (List Char × LineEnd)) :
    (met ps).countP (fun p => picked p.1) = ps.countP fun p => picked p.1 := by
  fun_induction met ps with
  | case1 => rfl
  | case2 content ps ih => simp only [List.countP_cons, ih, picked_nil hPicked]; rfl
  | case3 p ps _ ih => rw [List.countP_cons, List.countP_cons, ih]

/-- Lines that meet can be stripped before or afterwards: an empty line is not picked. -/
theorem joined_stripFirst_met (k : Nat) (ps : List (List Char × LineEnd)) :
    joined (stripFirst picked k (met ps)) = joined (stripFirst picked k ps) := by
  fun_induction met ps generalizing k with
  | case1 => rfl
  | case2 content ps ih =>
    obtain ⟨content', k', -, hCons⟩ := exists_stripFirst_cons picked k content
    have hEmpty : ¬ picked [] = true := by
      rw [picked_nil hPicked]
      exact Bool.false_ne_true
    -- Alone, the empty line would be passed over, so both ways count the same lines.
    rw [hCons, hCons, stripFirst_of_not hEmpty, joined_cons, joined_cons, joined_cons, ih]
    rfl
  | case3 p ps _ ih =>
    obtain ⟨content', k', -, hCons⟩ := exists_stripFirst_cons picked k p.1
    rw [hCons p.2, hCons p.2, joined_cons, joined_cons, ih]

/-- **Two passes over a text** strip as many lines as the limits of both allow. -/
theorem strip_strip (j k : Nat) (text : List Char) :
    strip picked k (strip picked j text) = strip picked (j + k) text := by
  rw [strip, strip, strip, pieces_joined (areLines_stripFirst j (areLines_pieces text)),
    joined_stripFirst_met hPicked, stripFirst_stripFirst hPicked]

theorem length_runs_strip (k : Nat) (text : List Char) :
    (TrailingRun.runs picked (strip picked k text)).length =
      (TrailingRun.runs picked text).length - k := by
  rw [TrailingRun.length_runs, TrailingRun.length_runs, strip,
    pieces_joined (areLines_stripFirst k (areLines_pieces text)), countP_met hPicked,
    countP_stripFirst hPicked]

end Picked

end Text

/-! ### Runs that are not suppressed -/

namespace TrailingRun

open Text

def unsuppressed (text : List Char) (skip : Bool) : List TrailingRun :=
  (scan text skip).filter fun run => !(Suppressions.ofText text).covers TrailingSpaces.id run.start

/-- Whether a line with this content has a run that its comments do not suppress. -/
def hasOpenRun (skip : Bool) (content : List Char) : Bool :=
  hasRun skip content && !Suppression.silences content TrailingSpaces.id

theorem rdropWhile_ne_of_hasOpenRun {skip : Bool} (content : List Char)
    (h : hasOpenRun skip content = true) : content.rdropWhile isGap ≠ content :=
  rdropWhile_ne_of_hasRun (Bool.and_eq_true_iff.1 h).1

theorem unsuppressed_eq (text : List Char) (skip : Bool) :
    unsuppressed text skip = runs (hasOpenRun skip) text := by
  rw [unsuppressed, scan_eq, runs, runs, List.filter_map, List.filter_filter]
  refine congrArg (List.map atEnd) (List.filter_congr fun l hLine => ?_)
  cases hRun : hasRun skip l.content with
  | false => rw [hasOpenRun, hRun, Bool.and_false, Bool.false_and]
  | true =>
    have hLt := start_lt_stop (rdropWhile_ne_of_hasRun hRun)
    have hHolds : l.Holds (atEnd l).start := by
      simp only [atEnd] at hLt ⊢
      exact ⟨by omega, Or.inl (by omega)⟩
    rw [hasOpenRun, hRun, Bool.and_true, Bool.true_and, Function.comp,
      Suppressions.covers_eq hLine hHolds]

end TrailingRun

/-! ### What a pass finds -/

namespace Settings

variable {s : Settings}

theorem rate_of_meets {severity : Value} (h : s.meets severity = .ok true) (findings : List Finding) :
    s.rate severity findings = .ok (findings.map fun f => { f with severity }) := by
  cases findings with
  | nil => rfl
  | cons f findings =>
    rw [rate, if_neg (by simp), h]
    rfl

end Settings

namespace TrailingSpaces

open TrailingRun

def finding (path : String) (severity : Value) (text : List Char) (run : TrailingRun) : Finding :=
  (report run).finding id path severity (Buffer.ofText text)

/-- The findings of the first runs that no comment suppresses. -/
def found (path : String) (severity : Value) (skip : Bool) (k : Nat) (text : List Char) :
    List Finding :=
  ((unsuppressed text skip).take k).map (finding path severity text)

theorem edits_found (path : String) (severity : Value) (skip : Bool) (k : Nat) (text : List Char) :
    Finding.edits (found path severity skip k text) = ((unsuppressed text skip).take k).map edit :=
  edits_report ..

theorem exists_config {s : Settings} (hCheck : s.check [rule] = .ok ()) :
    ∃ options config, s.optionMapping id = .ok options ∧
      TrailingConfig.read (Rule.givenOptions options) = .ok config := by
  have hRule : rule ∈ Standard.rules := Standard.mem_rules.2 (Or.inl rfl)
  obtain ⟨check, hHas, hObject⟩ := Standard.check_eq_none hRule
  obtain ⟨given, hGiven, hOptions⟩ := Settings.optionMapping_eq_ok hHas hObject
    ((Settings.check_eq_ok hCheck).1 rule List.mem_cons_self)
  cases hHas
  cases hRead : TrailingConfig.read (Rule.givenOptions given) with
  | error fault =>
    simp only [hRead] at hGiven
    cases hGiven
  | ok config =>
    rw [← Rule.givenOptions_givenOptions] at hRead
    exact ⟨_, config, hOptions, hRead⟩

variable {s : Settings} {options severity : Value} {config : TrailingConfig}

theorem result_ofRule (path : String) (text : List Char) (hOptions : s.optionMapping id = .ok options)
    (hRead : TrailingConfig.read (Rule.givenOptions options) = .ok config)
    (hSeverity : s.severityOf id (.text "warn") = .ok severity) (hMeets : s.meets severity = .ok true) :
    (Analysis.ofRule s (Analysis.viewOf path text none) rule).result =
      .ok ((scan text config.skipBlankLines).map (finding path severity text)) := by
  have hVisit := visit_viewOf path text none hRead
  have hOptions' : s.optionMapping rule.id = .ok options := hOptions
  have hSeverity' : s.severityOf rule.id (.text rule.defaultSeverity) = .ok severity := hSeverity
  have hVisit' : rule.visit ((Analysis.viewOf path text none).withOptions options) = _ := hVisit
  have hRuns : ¬ (rule.needsTree && (Analysis.viewOf path text none).tree.isNone) = true :=
    Bool.false_ne_true
  rw [Analysis.ofRule, if_neg hRuns, hOptions', Logged.result_bind]
  simp only [Logged.lift, mapError_ok, Except.bind, hVisit', hSeverity']
  show (s.rate severity _).mapError _ = _
  rw [Settings.rate_of_meets hMeets, mapError_ok, List.map_map]
  rfl

theorem unsuppressed_findings (path : String) (text : List Char) (severity : Value) (skip : Bool) :
    Finding.unsuppressed text ((scan text skip).map (finding path severity text)) =
      (unsuppressed text skip).map (finding path severity text) := by
  rw [Finding.unsuppressed, List.filter_map, unsuppressed]
  rfl

theorem sort_findings (path : String) (text : List Char) (severity : Value) (skip : Bool) :
    Finding.sort ((unsuppressed text skip).map (finding path severity text)) =
      (unsuppressed text skip).map (finding path severity text) := by
  refine List.mergeSort_of_pairwise (List.pairwise_map.2 ?_)
  rw [unsuppressed_eq]
  refine (pairwise_runs text).imp fun {run run'} hStart => ?_
  have hRule : decide (id ≤ id) = true := decide_eq_true (String.le_refl id)
  show (decide ((run.start : Int) < run'.start) ||
    ((run.start : Int) == run'.start && decide (id ≤ id))) = true
  rw [hRule, Bool.and_true, Bool.or_eq_true, decide_eq_true_eq, beq_iff_eq]
  omega

/-- **An analysis** finds the first runs that no comment suppresses, as many as the limit allows. -/
theorem result_run (grammar : Grammar) (path : String) {k : Nat}
    (hOptions : s.optionMapping id = .ok options)
    (hRead : TrailingConfig.read (Rule.givenOptions options) = .ok config)
    (hSeverity : s.severityOf id (.text "warn") = .ok severity) (hMeets : s.meets severity = .ok true)
    (hLimit : s.maxPerFile = .int k) (text : List Char) :
    (Analysis.run grammar s [rule] path text).result =
      .ok (found path severity config.skipBlankLines k text) := by
  have hRule := result_ofRule path text hOptions hRead hSeverity hMeets
  have hGather : (Logged.gather (Analysis.ofRule s (Analysis.viewOf path text none)) [rule]).result =
      .ok ((scan text config.skipBlankLines).map (finding path severity text)) := by
    rw [Logged.result_gather_cons, hRule]
    exact congrArg Except.ok (List.append_nil _)
  have hTree : (Analysis.parse grammar [rule] text).result = .ok none := rfl
  rw [Analysis.result_run hTree hGather, hLimit, unsuppressed_findings, sort_findings, Settings.cut,
    takeTo_natCast, ← List.map_take, mapError_ok]
  rfl

end TrailingSpaces

/-! ### What passes do -/

namespace TrailingRun

open Text

variable {picked : List Char → Bool}

theorem strip_of_take {text : List Char} {k : Nat} (h : (runs picked text).take k = []) (passes : Nat) :
    strip picked (passes * k) text = text := by
  rcases List.take_eq_nil_iff.1 h with rfl | hNone
  · rw [Nat.mul_zero, strip_zero]
  · have hCount : (pieces text).countP (fun p => picked p.1) ≤ 0 := by
      rw [← length_runs, hNone]
      exact Nat.le_refl 0
    rw [strip, stripFirst_of_le (Nat.le_trans hCount (Nat.zero_le _)), ← stripFirst_of_le hCount,
      stripFirst_zero, joined_pieces]

section Picked

variable (hPicked : ∀ content, picked content = true → content.rdropWhile isGap ≠ content)
include hPicked

theorem strip_ne {text : List Char} {k : Nat} (h : (runs picked text).take k ≠ []) :
    strip picked k text ≠ text := by
  intro hSame
  have hLength := length_runs_strip hPicked k text
  rw [hSame] at hLength
  have hSome := List.length_pos_iff.2 h
  rw [List.length_take] at hSome
  omega

/-- **Stripping deletes the first runs**, and nothing else. -/
theorem encode_strip (text : List Char) (n : Nat) :
    encode (strip picked n text) =
      Edit.replaced (encode text) (((runs picked text).take n).map edit) := by
  obtain ⟨hOrdered, hNonempty⟩ := ordered_runs hPicked text n
  have hFitting : Edit.fitting (encode text).length (((runs picked text).take n).map edit) =
      ((runs picked text).take n).map edit := by
    refine List.filter_eq_self.2 fun e he => ?_
    obtain ⟨run, hRun, rfl⟩ := List.mem_map.1 he
    obtain ⟨l, hLine, rfl⟩ := List.mem_map.1 ((runs_sublist text).subset (List.mem_of_mem_take hRun))
    obtain ⟨pre, post, hText, hStart⟩ := cut_of_mem_split hLine
    have hWidth : width text = l.start + width l.content + width (l.ending.chars ++ post) := by
      rw [hStart, hText, Utf8.width_append, Utf8.width_append, Nat.add_assoc]
    rw [decide_eq_true_eq]
    show ((l.start + width l.content : Nat) : Int) ≤ (width text : Nat)
    omega
  rw [strip, ← spliceAll_text,
    Edit.spliceAll_eq_replaced hOrdered fun e he => (hNonempty e he).1, hFitting]

end Picked

end TrailingRun

namespace Fixing

open Text TrailingRun TrailingSpaces

section Passes

variable {analyze : List Char → Logged (List Finding)} {path : String} {severity : Value} {skip : Bool}
  {k : Nat}

theorem step?_found (text : List Char) :
    step? text (found path severity skip k text) =
      .ok (if ((unsuppressed text skip).take k).isEmpty then none
        else some (strip (hasOpenRun skip) k text)) := by
  rw [step?, edits_found, unsuppressed_eq, List.isEmpty_map]
  split
  next => rfl
  next hSome =>
    have hRuns : (runs (hasOpenRun skip) text).take k ≠ [] := fun h => hSome (by rw [h]; rfl)
    rw [applied?_runs rdropWhile_ne_of_hasOpenRun]
    exact congrArg Except.ok (if_neg (strip_ne rdropWhile_ne_of_hasOpenRun hRuns))

/-- **Passes with a limit** strip as many lines as the limit allows, pass by pass. -/
theorem passesFrom_found
    (hAnalyze : ∀ text, (analyze text).result = .ok (found path severity skip k text)) (passes : Nat)
    (text : List Char) :
    (passesFrom analyze passes text (found path severity skip k text)).result =
      .ok (strip (hasOpenRun skip) (passes * k) text,
        found path severity skip k (strip (hasOpenRun skip) (passes * k) text)) := by
  induction passes generalizing text with
  | zero =>
    rw [Nat.zero_mul, strip_zero]
    rfl
  | succ passes ih =>
    have hStep := @step?_found path severity skip k text
    by_cases hNone : ((unsuppressed text skip).take k).isEmpty = true
    · rw [if_pos hNone] at hStep
      rw [List.isEmpty_iff, unsuppressed_eq] at hNone
      rw [passesFrom_of_stable hStep, strip_of_take hNone]
    · rw [if_neg hNone] at hStep
      rw [passesFrom_of_step hStep (hAnalyze _), ih, strip_strip rdropWhile_ne_of_hasOpenRun,
        Nat.succ_mul, Nat.add_comm k]

end Passes

/-- **A run with the trailing spaces rule and a limit** deletes the first trailing runs that no comment
suppresses, in the order of the text, as many as ten times the limit, and nothing else. What is left is
found up to the limit. -/
theorem stripped_of_run (grammar : Grammar) (s : Settings) (path : String) (text : List Char) (k : Nat)
    {severity : Value} (hCheck : s.check [TrailingSpaces.rule] = .ok ())
    (hLimit : s.maxPerFile = .int k)
    (hSeverity : s.severityOf TrailingSpaces.id (.text TrailingSpaces.rule.defaultSeverity) =
      .ok severity)
    (hMeets : s.meets severity = .ok true) :
    ∃ options config fixed left, s.optionMapping TrailingSpaces.id = .ok options ∧
      TrailingConfig.read (Rule.givenOptions options) = .ok config ∧
      (run grammar s [TrailingSpaces.rule] path text).result = .ok (fixed, left) ∧
      encode fixed = Edit.replaced (encode text)
        (((unsuppressed text config.skipBlankLines).take
          (min (unsuppressed text config.skipBlankLines).length (maxPasses * k))).map edit) ∧
      left.length = min k ((unsuppressed text config.skipBlankLines).length -
        min (unsuppressed text config.skipBlankLines).length (maxPasses * k)) := by
  obtain ⟨options, config, hOptions, hRead⟩ := TrailingSpaces.exists_config hCheck
  have hAnalyze := TrailingSpaces.result_run grammar path hOptions hRead hSeverity hMeets hLimit
  have hFirst : (run grammar s [TrailingSpaces.rule] path text).result =
      (passesFrom (Analysis.run grammar s [TrailingSpaces.rule] path) maxPasses text
        (found path severity config.skipBlankLines k text)).result := by
    rw [run, Logged.result_bind, hAnalyze]
    rfl
  have hPasses := passesFrom_found hAnalyze maxPasses text
  refine ⟨options, config, _, _, hOptions, hRead, hFirst.trans hPasses, ?_, ?_⟩
  · rw [encode_strip rdropWhile_ne_of_hasOpenRun, unsuppressed_eq, Nat.min_comm,
      ← List.take_eq_take_min]
  · rw [found, List.length_map, List.length_take, unsuppressed_eq, unsuppressed_eq,
      length_runs_strip rdropWhile_ne_of_hasOpenRun]
    omega

def oneByOne : Settings := { Settings.standard with maxPerFile := .int 1 }

/-- Two runs around a carriage return, one that a comment suppresses, and ten others. -/
def ragged : List Char :=
  "a \r \nb // spacelint: ignore[*] \n".toList ++ (List.replicate 10 "c \n".toList).flatten

def combed : List Char :=
  "a\r\nb // spacelint: ignore[*] \n".toList ++ (List.replicate 8 "c\n".toList).flatten ++
    (List.replicate 2 "c \n".toList).flatten

/-- In the first two passes the lines around the carriage return meet; ten passes leave two of twelve
runs. -/
theorem stripped_of_run_ragged :
    oneByOne.check [TrailingSpaces.rule] = .ok () ∧ oneByOne.maxPerFile = .int 1 ∧
      oneByOne.severityOf TrailingSpaces.id (.text "warn") = .ok (.text "warn") ∧
      oneByOne.meets (.text "warn") = .ok true ∧
      ∃ left, (run (fun _ => none) oneByOne [TrailingSpaces.rule] "a.js" ragged).result =
        .ok (combed, left) ∧ left.length = 1 := by
  have hCheck : oneByOne.check [TrailingSpaces.rule] = .ok () := by rfl
  have hSeverity : oneByOne.severityOf TrailingSpaces.id (.text "warn") = .ok (.text "warn") := by rfl
  have hMeets : oneByOne.meets (.text "warn") = .ok true := by rfl
  obtain ⟨options, config, fixed, left, hOptions, hRead, hRun, hFixed, hLeft⟩ :=
    stripped_of_run (fun _ => none) oneByOne "a.js" ragged 1 hCheck rfl hSeverity hMeets
  have hConfig : config = ⟨false⟩ := by
    cases hOptions
    cases hRead
    rfl
  have hLength : (unsuppressed ragged false).length = 12 := by decide +kernel
  have hReplaced : Edit.replaced (encode ragged) (((unsuppressed ragged false).take 10).map edit) =
      encode combed := by decide +kernel
  rw [hConfig, hLength] at hFixed hLeft
  obtain rfl : fixed = combed := Utf8.encode_injective (hFixed.trans hReplaced)
  exact ⟨hCheck, rfl, hSeverity, hMeets, left, hRun, hLeft⟩

end Fixing

end TidySpace
