import TidySpace.Proofs.Analysis

/-! # What the rules report

What follows from a report having been made. The trailing rule reports the trailing runs of the
text. The curly rule reports on a construct whose braces it found (`Found`), and then on a pair of
tokens whose gap has a fault; `mem_reports` puts this together. All tokens here are tokens of the
source, whatever the tree was like.
-/

namespace TidySpace

/-! ### Tokens that are found are tokens of the source -/

namespace Source

variable {s : Source} {x y : Int} {t : Token}

theorem mem_of_after? (h : s.after? x = some t) : t ∈ s.tokens := List.mem_of_getElem? h

theorem mem_of_before? (h : s.before? x = some t) : t ∈ s.tokens := by
  rw [before?] at h
  split at h
  next => cases h
  next => exact List.mem_of_getElem? h

theorem mem_of_firstIn? (h : s.firstIn? x y = some t) : t ∈ s.tokens := by
  obtain ⟨hGet, -⟩ := Option.filter_eq_some_iff.1 h
  exact List.mem_of_getElem? hGet

theorem mem_of_lastIn? (h : s.lastIn? x y = some t) : t ∈ s.tokens := by
  obtain ⟨hBefore, -⟩ := Option.filter_eq_some_iff.1 h
  exact mem_of_before? hBefore

theorem eq_token_of_mem {text : List Char} {tree : Option Node}
    (h : t ∈ (Source.ofText text tree).tokens) :
    ∃ (kind : String) (start stop : Nat), t = (Buffer.ofText text).token kind start stop := by
  obtain ⟨n, -, rfl⟩ := List.mem_map.1 h
  exact ⟨n.kind, n.start, n.stop, rfl⟩

end Source

/-! ### Findings of reports -/

@[simp] theorem Report.fix_finding (r : Report) (rule file : String) (severity : Value)
    (b : Buffer) : (r.finding rule file severity b).fix.getD [] = r.fix := by
  show (if r.fix.isEmpty then none else some r.fix : Option (List Edit)).getD [] = r.fix
  split
  next h => exact (List.isEmpty_iff.1 h).symm
  next => rfl

@[simp] theorem Report.rule_finding (r : Report) (rule file : String) (severity : Value)
    (b : Buffer) : (r.finding rule file severity b).rule = rule := rfl

theorem Finding.mem_edits {findings : List Finding} {e : Edit} :
    e ∈ Finding.edits findings ↔ ∃ f ∈ findings, e ∈ f.fix.getD [] :=
  List.mem_flatMap

theorem Rows.get?_map_text (ms : Members) (key : String) :
    Rows.get? (ms.map fun m => (.text m.1, m.2)) (.text key) = ms.get? key := by
  induction ms with
  | nil => rfl
  | cons m ms ih =>
    rw [Rows.get?] at ih
    rw [Rows.get?, List.map_cons, List.find?_cons, Value.same, Members.get?_cons]
    by_cases hKey : key = m.1
    · rw [if_pos hKey, beq_iff_eq.2 hKey]
      rfl
    · rw [if_neg hKey, beq_eq_false_iff_ne.2 hKey]
      exact ih

namespace TrailingSpaces

theorem mem_visit {view : FileView} {findings : List Finding} {f : Finding}
    (h : rule.visit view = .ok findings) (hf : f ∈ findings) :
    ∃ skip, ∃ run ∈ TrailingRun.scan view.text skip,
      f = (report run).finding id view.path (.text "warn") view.source.toBuffer := by
  change visit view = _ at h
  unfold visit at h
  split at h
  next =>
    cases h
    exact absurd hf List.not_mem_nil
  next =>
    split at h
    next => cases h
    next config _ =>
      cases h
      obtain ⟨run, hRun, rfl⟩ := List.mem_map.1 hf
      exact ⟨config.skipBlankLines, run, hRun, rfl⟩

end TrailingSpaces

namespace CurlySpacing

variable {s : Source} {o : CurlyOptions} {c : BraceConstruct} {t : Braces}

/-- Braces as they are found: two tokens that are braces, the token after the first, and the token
before the second. -/
structure Found (s : Source) (t : Braces) : Prop where
  opening_mem : t.opening ∈ s.tokens
  closing_mem : t.closing ∈ s.tokens
  opening_text : t.opening.text = ['\x7b']
  closing_text : t.closing.text = ['\x7d']
  second : s.after? t.opening.stop = some t.second
  penultimate : s.before? t.closing.start = some t.penultimate

theorem bracesOf?_eq_some {first last : Option Token} : bracesOf? s first last = some t ↔
    first = some t.opening ∧ last = some t.closing ∧ t.opening.text = ['\x7b'] ∧
      t.closing.text = ['\x7d'] ∧ s.after? t.opening.stop = some t.second ∧
      s.before? t.closing.start = some t.penultimate := by
  constructor
  · intro h
    unfold bracesOf? at h
    split at h
    next opening closing =>
      split at h
      next hText =>
        split at h
        next hSecond hPenultimate =>
          cases h
          exact ⟨rfl, rfl, hText.1, hText.2, hSecond, hPenultimate⟩
        next => cases h
      next => cases h
    next => cases h
  · rintro ⟨rfl, rfl, hOpening, hClosing, hSecond, hPenultimate⟩
    rw [bracesOf?, if_pos ⟨hOpening, hClosing⟩, hSecond, hPenultimate]

theorem found_of_bracesOf? {first last : Option Token} (hFirst : ∀ a, first = some a → a ∈ s.tokens)
    (hLast : ∀ a, last = some a → a ∈ s.tokens) (h : bracesOf? s first last = some t) :
    Found s t := by
  obtain ⟨rfl, rfl, hOpening, hClosing, hSecond, hPenultimate⟩ := bracesOf?_eq_some.1 h
  exact ⟨hFirst _ rfl, hLast _ rfl, hOpening, hClosing, hSecond, hPenultimate⟩

theorem mem_of_afterList? {x : Int} {a : Token} (h : afterList? s x = some a) : a ∈ s.tokens := by
  unfold afterList? at h
  split at h
  next b hAfter =>
    split at h
    next => exact Source.mem_of_after? h
    next =>
      cases h
      exact Source.mem_of_after? hAfter
  next => cases h

theorem found_of_bracesAround? {x y : Int} (h : bracesAround? s x y = some t) : Found s t :=
  found_of_bracesOf? (fun _ => Source.mem_of_before?) (fun _ => mem_of_afterList?) h

theorem found_of_braces? (h : braces? s c = some t) : Found s t := by
  unfold braces? at h
  split at h
  next =>
    split at h
    next =>
      obtain ⟨first, -, h⟩ := Option.bind_eq_some_iff.1 h
      exact found_of_bracesAround? h
    next => cases h
  next => exact found_of_bracesAround? h
  next => exact found_of_bracesOf? (fun _ => Source.mem_of_firstIn?) (fun _ => Source.mem_of_lastIn?) h
  next => exact found_of_bracesOf? (fun _ => Source.mem_of_firstIn?) (fun _ => Source.mem_of_lastIn?) h
  next => cases h

theorem braces?_nil (h : c.elements = []) : braces? s c = none := by
  unfold braces?
  rw [h]
  cases c.kind <;> rfl

/-- The pairs of a construct that are asked for a fault: the two tokens, whether they must be
spaced, and the byte at the brace. -/
inductive Checked (o : CurlyOptions) (kind : ConstructKind) (t : Braces) :
    Token → Token → Bool → Int → Prop where
  | opening : Checked o kind t t.opening t.second (o.forKind kind) t.opening.stop
  | closing : Checked o kind t t.penultimate t.closing (closingSpaced o kind t.penultimate)
      t.closing.start

theorem braces_of_mem_reports {r : Report} (h : r ∈ reports s o c) :
    ∃ t, braces? s c = some t ∧ (openingReport? s.toBuffer o c.kind t = some r ∨
      closingReport? s.toBuffer o c.kind t = some r) := by
  unfold reports at h
  split at h
  next t hBraces =>
    exact ⟨t, hBraces, (List.mem_append.1 h).imp Option.mem_toList.1 Option.mem_toList.1⟩
  next => exact absurd h List.not_mem_nil

/-- **A report is about a pair of tokens whose gap has a fault**, and it carries what mends it. -/
theorem mem_reports {r : Report} (h : r ∈ reports s o c) :
    ∃ t left right must brace fault, braces? s c = some t ∧
      Checked o c.kind t left right must brace ∧
      s.toBuffer.pairFault? left right must = some fault ∧
      r.fix = mend s.toBuffer fault left right brace := by
  obtain ⟨t, hBraces, h | h⟩ := braces_of_mem_reports h
  · obtain ⟨fault, hFault, rfl⟩ := Option.map_eq_some_iff.1 h
    exact ⟨t, _, _, _, _, fault, hBraces, .opening, hFault, rfl⟩
  · obtain ⟨fault, hFault, rfl⟩ := Option.map_eq_some_iff.1 h
    exact ⟨t, _, _, _, _, fault, hBraces, .closing, hFault, rfl⟩

/-- **Options that were checked are read**, and as they were checked. -/
theorem readOptions_of_read {options : Value} {config : CurlyConfig}
    (h : CurlyConfig.read (Rule.givenOptions options) = .ok config) :
    readOptions options = .ok (.ofConfig config) := by
  obtain ⟨ms, hGiven⟩ : ∃ ms, Rule.givenOptions options = .object ms := by
    cases hGiven : Rule.givenOptions options with
    | object ms => exact ⟨ms, rfl⟩
    | _ =>
      rw [hGiven] at h
      cases h
  have hRead : readOptions options = resolve ((Members.get? ms "options").getD (.list [])) := by
    rw [readOptions, hGiven, ← Rows.get?_map_text]
    rfl
  rw [hGiven, CurlyConfig.read] at h
  rw [hRead]
  cases hGet : Members.get? ms "options" with
  | some v =>
    simp only [hGet] at h
    have hList : CurlyConfig.readList v = .ok config := by
      split at h
      next hList _ => cases h; exact hList
      next => cases h
      next => cases h
    rw [Option.getD_some]
    cases v with
    | list items =>
      show ((CurlyConfig.readItems items).mapError _ >>= _ : Except Failure _) = _
      rw [show CurlyConfig.readItems items = .ok config from hList]
      rfl
    | _ => cases hList
  | none =>
    simp only [hGet] at h
    split at h
    next hList _ =>
      cases hList
      cases h
      rfl
    next => cases h
    next => cases h

theorem visit_viewOf (path : String) (text : List Char) (tree : Node) {options : Value}
    (hOptions : readOptions options = .ok o) :
    visit ((Analysis.viewOf path text (some tree)).withOptions options) =
      .ok ((tree.constructs.flatMap (reports (Source.ofText text (some tree)) o)).map fun r =>
        r.finding id path (.text "warn") (Buffer.ofText text)) := by
  show (readOptions options >>= _ : Except Failure (List Finding)) = _
  rw [hOptions]
  rfl

theorem mem_visit {view : FileView} {findings : List Finding} {f : Finding}
    (h : rule.visit view = .ok findings) (hf : f ∈ findings) :
    ∃ root o c r, view.tree = some root ∧ r ∈ reports view.source o c ∧
      f = r.finding id view.path (.text "warn") view.source.toBuffer := by
  change visit view = _ at h
  unfold visit at h
  split at h
  next language root _ hTree =>
    split at h
    next =>
      obtain ⟨o, -, h⟩ := bind_eq_ok h
      split at h
      next =>
        cases h
        obtain ⟨r, hr, rfl⟩ := List.mem_map.1 hf
        obtain ⟨c, -, hr⟩ := List.mem_flatMap.1 hr
        exact ⟨root, o, c, r, hTree, hr, rfl⟩
      next => cases h
    next =>
      cases h
      exact absurd hf List.not_mem_nil
  next =>
    cases h
    exact absurd hf List.not_mem_nil

end CurlySpacing

/-- **What a standard rule makes of a text** is the finding of a report, about a trailing run or about a
construct of the tree. -/
theorem Rule.Makes.exists_report {rule : Rule} (hRule : rule ∈ Standard.rules) {path : String}
    {text : List Char} {tree : Option Node} {f : Finding}
    (h : rule.Makes (Analysis.viewOf path text tree) f) :
    ∃ (r : Report) (id : String) (severity : Value),
      f = r.finding id path severity (Buffer.ofText text) ∧
      ((id = TrailingSpaces.id ∧
          ∃ skip, ∃ run ∈ TrailingRun.scan text skip, r = TrailingSpaces.report run) ∨
        (id = CurlySpacing.id ∧ ∃ root o c, tree = some root ∧
          r ∈ CurlySpacing.reports (Source.ofText text tree) o c)) := by
  obtain ⟨options, findings, g, severity, hVisit, hg, rfl⟩ := h
  rcases Standard.mem_rules.1 hRule with rfl | rfl
  · obtain ⟨skip, run, hRun, rfl⟩ := TrailingSpaces.mem_visit hVisit hg
    exact ⟨_, TrailingSpaces.id, severity, rfl, Or.inl ⟨rfl, skip, run, hRun, rfl⟩⟩
  · obtain ⟨root, o, c, r, hTree, hr, rfl⟩ := CurlySpacing.mem_visit hVisit hg
    exact ⟨r, CurlySpacing.id, severity, rfl, Or.inr ⟨rfl, root, o, c, hTree, hr⟩⟩

/-! ### Faults -/

theorem Buffer.pairFault?_eq_some {b : Buffer} {left right : Token} {must : Bool} {fault : GapFault}
    (h : b.pairFault? left right must = some fault) :
    left.stopPos.line = right.startPos.line ∧
      ((fault = .missing ∧ must = true ∧ b.isSpacedPair left right = false) ∨
        (fault = .unexpected ∧ must = false ∧ b.isSpacedPair left right = true)) := by
  unfold pairFault? at h
  split at h
  next hLine =>
    refine ⟨hLine, ?_⟩
    generalize b.isSpacedPair left right = spaced at h ⊢
    cases must <;> cases spaced <;> cases h
    · exact Or.inr ⟨rfl, rfl, rfl⟩
    · exact Or.inl ⟨rfl, rfl, rfl⟩
  next => cases h

namespace CurlySpacing

variable {b : Buffer} {fault : GapFault} {left right : Token} {e : Edit}

theorem mend_of_blank (h : b.gapIsBlank left right = true) (brace : Int) :
    mend b .unexpected left right brace = [⟨left.stop, right.start, []⟩] := by
  rw [mend, if_pos h]

theorem mend_of_not_blank (h : ¬ b.gapIsBlank left right = true) (brace : Int) :
    mend b .unexpected left right brace = [] := by
  rw [mend, if_neg h]

/-- **What mends a gap** is a space at the brace, or the deletion of a blank gap. -/
theorem mem_mend {brace : Int} (h : e ∈ mend b fault left right brace) :
    (fault = .missing ∧ e = ⟨brace, brace, [' ']⟩) ∨
      (fault = .unexpected ∧ b.gapIsBlank left right = true ∧ e = ⟨left.stop, right.start, []⟩) := by
  cases fault with
  | missing => exact Or.inl ⟨rfl, List.mem_singleton.1 h⟩
  | unexpected =>
    by_cases hBlank : b.gapIsBlank left right = true
    · rw [mend_of_blank hBlank] at h
      exact Or.inr ⟨rfl, hBlank, List.mem_singleton.1 h⟩
    · rw [mend_of_not_blank hBlank] at h
      exact absurd h List.not_mem_nil

end CurlySpacing

end TidySpace
