import Mathlib
import TidySpace.Proofs.Places
import TidySpace.Proofs.StrippedLines
import TidySpace.Proofs.SuppressedLines

/-! # Lines on which findings are shown

A position counts the lines that begin at or before an offset, clamped to the text; suppressions walk
over the line starts up to the offset as it is. Both name the line on which the offset stands
(`Suppressions.lineOf_eq_position`): an offset before the text is on the first line for both, and one
behind it on the last, which has no end.

A finding is shown at a place of its own, but suppressed by where it starts. Only a finding about an
opening brace is shown elsewhere, behind its brace. As the brace was read off the text, it ends on the
line on which it begins, whatever the tree said (`Buffer.line_of_slice`). So a comment acts on the
findings that are shown on its line (`Suppression.silences_of_shown`).
-/

namespace TidySpace

/-! ### The line of an offset -/

namespace Buffer

theorem exists_line_position (text : List Char) (b : Int) :
    ∃ l ∈ Text.split text, ((ofText text).position b).line = l.number ∧ (0 ≤ b → l.Holds b) := by
  obtain ⟨front, line, rest, before, after, hSpot⟩ := exists_spot (clamp_le text b)
  have hClamp := clamp_eq text b
  refine ⟨_, List.mem_of_getElem? (getElem?_split hSpot.pieces), ?_, fun hPos => ⟨?_, ?_⟩⟩
  · rw [position_clamp b, hSpot.position_eq]
  · have hStart := hSpot.le
    show (Utf8.width (Text.joined front) : Int) ≤ b
    omega
  · cases hAfter : after with
    | nil =>
      obtain ⟨rfl, -⟩ := hSpot.last hAfter
      obtain ⟨lines, last, hPieces, -⟩ := Text.pieces_eq text
      obtain ⟨-, hLast⟩ := List.append_inj' (hSpot.pieces.symm.trans hPieces) rfl
      exact Or.inr (congrArg Prod.snd (List.singleton_inj.1 hLast))
    | cons c cs =>
      -- A character stands behind the offset, so the offset was not clamped.
      have hStop := hSpot.lt c cs hAfter
      have hText := congrArg Utf8.width hSpot.text_eq
      have hChars := congrArg Utf8.width hSpot.chars
      rw [hAfter] at hText hChars
      simp only [Utf8.width_append, List.cons_append, Utf8.width_cons, Text.width_chars] at hText hChars
      refine Or.inl ?_
      show b < (Utf8.width (Text.joined front) : Int) + Utf8.width line.1 + line.2.chars.length
      omega

theorem line_of_neg (text : List Char) {b : Int} (h : b < 0) : ((ofText text).position b).line = 1 := by
  have hClamp : (ofText text).clamp b = 0 := by
    have := clamp_eq text b
    omega
  have hNone : (Text.breakEnds 0 (Utf8.encode text)).countP (· ≤ 0) = 0 := by
    rw [List.countP_eq_zero]
    intro k hk
    obtain ⟨i, rfl, -⟩ := Text.mem_breakEnds.1 hk
    simp
  show (0 :: Text.breakEnds 0 (Utf8.encode text)).countP (· ≤ (ofText text).clamp b) = 1
  rw [hClamp, List.countP_cons_of_pos (by decide), hNone]

/-- A character that is read between two offsets, and that ends no line, stands on one line. -/
theorem line_of_slice {text : List Char} {a b : Nat} {c : Char} (h : (ofText text).slice a b = [c])
    (hPlain : c ≠ Char.ofNat 0xFFFD) (hReturn : c ≠ '\r') (hFeed : c ≠ '\n') :
    ((ofText text).position a).line = ((ofText text).position b).line := by
  obtain ⟨pre, post, hText, hStart, hStop⟩ :=
    cut_of_slice h (List.cons_ne_nil _ _) fun hMem => hPlain (List.mem_singleton.1 hMem).symm
  rw [Utf8.width_cons, Utf8.width_nil, Nat.add_zero] at hStop
  have hClamp := clamp_eq text a
  have hClamp' := clamp_eq text b
  show (ofText text).lineAt ((ofText text).clamp a) = (ofText text).lineAt ((ofText text).clamp b)
  rw [show (ofText text).clamp a = Utf8.width pre by omega,
    show (ofText text).clamp b = Utf8.width pre + (Utf8.encodeChar c).length by omega,
    lineAt_eq_iff text (Nat.le_add_right ..)]
  intro i hi hi' hEnds
  obtain ⟨j, rfl⟩ := Nat.exists_eq_add_of_le hi
  rw [hText, Utf8.encode_append, List.cons_append, List.nil_append, Utf8.encode_cons, Utf8.width,
    Text.endsLine_append] at hEnds
  have hByte : ∀ byte, (Utf8.encodeChar c ++ Utf8.encode post)[j]? = some byte → byte.toNat < 0x80 →
      c.toNat = byte.toNat := by
    intro byte hGet hAscii
    rw [List.getElem?_append_left (by omega)] at hGet
    exact Utf8.toNat_of_mem_encodeChar (List.mem_of_getElem? hGet) hAscii
  rcases hEnds with hEnd | ⟨hEnd, -⟩
  · exact hFeed (Char.toNat_inj.1 (hByte _ hEnd (by decide)))
  · exact hReturn (Char.toNat_inj.1 (hByte _ hEnd (by decide)))

end Buffer

namespace Suppressions

theorem lineOf_of_neg (text : List Char) {b : Int} (h : b < 0) : (ofText text).lineOf b = 1 := by
  have hNone : ((Text.split text).map Text.Line.start).takeWhile
      (fun (start : Nat) => decide ((start : Int) ≤ b)) = [] := by
    cases (Text.split text).map Text.Line.start with
    | nil => rfl
    | cons start starts => exact List.takeWhile_cons_of_neg (by simp; omega)
  show max 1 (((Text.split text).map Text.Line.start).takeWhile _).length = 1
  rw [hNone]
  rfl

/-- **Suppressions know the line of an offset as positions do**, also of one outside the text. -/
theorem lineOf_eq_position (text : List Char) (b : Int) :
    (ofText text).lineOf b = ((Buffer.ofText text).position b).line := by
  by_cases hNeg : b < 0
  · rw [lineOf_of_neg text hNeg, Buffer.line_of_neg text hNeg]
  · obtain ⟨l, hLine, hNumber, hHolds⟩ := Buffer.exists_line_position text b
    rw [lineOf_eq hLine (hHolds (Int.not_lt.1 hNeg)), hNumber]

end Suppressions

/-! ### Findings -/

/-- A finding is shown on the line of a text on which it starts. -/
def Finding.ShownAtStart (f : Finding) (text : List Char) : Prop :=
  f.line = some (((Buffer.ofText text).position f.start).line : Int)

theorem TrailingSpaces.shownAtStart_report {text : List Char} {skip : Bool} {run : TrailingRun}
    (h : run ∈ TrailingRun.scan text skip) (id file : String) (severity : Value) :
    ((report run).finding id file severity (Buffer.ofText text)).ShownAtStart text := by
  have hStart := TrailingRun.position_start (TrailingRun.scan_eq text skip ▸ h)
  show some (run.line : Int) = some (((Buffer.ofText text).position run.start).line : Int)
  rw [hStart]

namespace CurlySpacing

variable {text : List Char} {tree : Option Node} {o : CurlyOptions} {c : BraceConstruct} {r : Report}

/-- **A brace is on the line on which it is shown**, the opening one too, which is shown where it
ends. -/
theorem shownAtStart_of_mem_reports (h : r ∈ reports (Source.ofText text tree) o c) (id file : String)
    (severity : Value) : (r.finding id file severity (Buffer.ofText text)).ShownAtStart text := by
  obtain ⟨t, hBraces, h⟩ := braces_of_mem_reports h
  have hFound := found_of_braces? hBraces
  rcases h with h | h
  · obtain ⟨fault, -, rfl⟩ := Option.map_eq_some_iff.1 h
    obtain ⟨-, hStop⟩ := Source.positions_of_mem hFound.opening_mem
    obtain ⟨kind, start, stop, hToken⟩ := Source.eq_token_of_mem hFound.opening_mem
    have hText := hFound.opening_text
    show some (t.opening.stopPos.line : Int) =
      some (((Buffer.ofText text).position t.opening.start).line : Int)
    rw [hStop]
    rw [hToken] at hText ⊢
    show some (((Buffer.ofText text).position stop).line : Int) =
      some (((Buffer.ofText text).position start).line : Int)
    rw [Buffer.line_of_slice hText (by decide) (by decide) (by decide)]
  · obtain ⟨fault, -, rfl⟩ := Option.map_eq_some_iff.1 h
    obtain ⟨hStart, -⟩ := Source.positions_of_mem hFound.closing_mem
    show some (t.closing.startPos.line : Int) =
      some (((Buffer.ofText text).position t.closing.start).line : Int)
    rw [hStart]

end CurlySpacing

theorem Standard.shownAtStart_of_visit {rule : Rule} (hRule : rule ∈ Standard.rules) {path : String}
    {text : List Char} {tree : Option Node} {language : Option Language} {options : Value}
    {findings : List Finding}
    (hVisit : rule.visit (.ofText path text tree language options) = .ok findings) {f : Finding}
    (hf : f ∈ findings) : f.ShownAtStart text := by
  rcases Standard.mem_rules.1 hRule with rfl | rfl
  · obtain ⟨skip, run, hRun, rfl⟩ := TrailingSpaces.mem_visit hVisit hf
    exact TrailingSpaces.shownAtStart_report hRun _ _ _
  · obtain ⟨root, o, c, r, -, hr, rfl⟩ := CurlySpacing.mem_visit hVisit hf
    exact CurlySpacing.shownAtStart_of_mem_reports hr _ _ _

namespace Suppression

/-- **Comments suppress the findings that are shown on their line.** Suppressions and positions name the
same line for every offset. Each finding of a standard rule is shown on the line of its start, and it is
suppressed just when the comments on that line name its rule. -/
theorem silences_of_shown (text : List Char) :
    (∀ b : Int, (Suppressions.ofText text).lineOf b = ((Buffer.ofText text).position b).line) ∧
      ∀ rule ∈ Standard.rules, ∀ (path : String) (tree : Option Node) (language : Option Language)
        (options : Value) (findings : List Finding),
        rule.visit (.ofText path text tree language options) = .ok findings → ∀ f ∈ findings,
          f.line = some ((Suppressions.ofText text).lineOf f.start : Int) ∧
          ∃ l ∈ Text.split text, f.line = some (l.number : Int) ∧
            (Suppressions.ofText text).covers f.rule f.start = silences l.content f.rule ∧
            ∀ all, f ∈ Finding.unsuppressed text all ↔ f ∈ all ∧ silences l.content f.rule = false := by
  refine ⟨Suppressions.lineOf_eq_position text, ?_⟩
  intro rule hRule path tree language options findings hVisit f hf
  have hShown : f.line = some _ := Standard.shownAtStart_of_visit hRule hVisit hf
  obtain ⟨l, hLine, hNumber, -⟩ := Buffer.exists_line_position text f.start
  have hLineOf := Suppressions.lineOf_eq_position text f.start
  have hCovers := Suppressions.covers_of_lineOf hLine (hLineOf.trans hNumber) f.rule
  refine ⟨hLineOf ▸ hShown, l, hLine, hNumber ▸ hShown, hCovers, fun all => ?_⟩
  rw [Finding.unsuppressed, List.mem_filter, hCovers, Bool.not_eq_true']

/-- Braces behind a carriage return, and a comment on their line. -/
def silencedLine : List Char := "\x7b a\x7d".toList ++ (comment [CurlySpacing.id] ++ [])

def silenced : List Char := "é\r".toList ++ silencedLine

def silencedTree : Node :=
  ⟨"program", true, 0, 1, [⟨"object", true, 3, 90,
    [⟨"\x7b", false, 3, 4, []⟩, ⟨"identifier", true, 5, 6, []⟩, ⟨"\x7d", false, 6, 7, []⟩]⟩]⟩

def silencedFinding : Finding where
  rule := CurlySpacing.id
  message := CurlySpacing.message .opening .unexpected
  file := "a.js"
  start := 3
  stop := 4
  severity := .text "warn"
  fix := some [⟨4, 5, []⟩]
  extra := CurlySpacing.extraOf .objectExpression .opening
  line := some 2
  column := some 2

/-- It is shown behind the brace, on the line of the comment, and no list of findings keeps it. -/
theorem silences_of_shown_comment :
    CurlySpacing.rule.visit (.ofText "a.js" silenced (some silencedTree) (some Language.javascript)
      .null) = .ok [silencedFinding] ∧
    (Suppressions.ofText silenced).lineOf silencedFinding.start = 2 ∧
    ∀ all, silencedFinding ∉ Finding.unsuppressed silenced all := by
  obtain ⟨-, hFindings⟩ := silences_of_shown silenced
  have hVisit : CurlySpacing.rule.visit (.ofText "a.js" silenced (some silencedTree)
      (some Language.javascript) .null) = .ok [silencedFinding] := by cbv
  obtain ⟨hLine, l, hMem, hNumber, -, hKept⟩ := hFindings _ (Standard.mem_rules.2 (Or.inr rfl)) _ _ _ _ _
    hVisit _ (List.mem_singleton_self _)
  have hSplit : Text.split silenced = [⟨1, ['é'], 0, .cr⟩, ⟨2, silencedLine, 3, .absent⟩] := by
    decide +kernel
  have hContent : l.content = silencedLine := by
    rw [hSplit, List.mem_cons, List.mem_singleton] at hMem
    rcases hMem with rfl | rfl
    · cases hNumber
    · rfl
  refine ⟨hVisit, (Int.ofNat_inj.1 (Option.some.inj hLine)).symm, fun all => ?_⟩
  rw [hKept all, hContent]
  rintro ⟨-, hSilent⟩
  have hSilences : silences silencedLine CurlySpacing.id = true :=
    silences_comment (by decide) (by decide) (List.mem_singleton_self _)
  exact Bool.noConfusion (hSilent.symm.trans hSilences)

end Suppression

end TidySpace
