import TidySpace.Proofs.Reports

/-! # Sides of constructs

The rule makes at most one report about each side of a construct. So a run goes through the sides of the
tree, in document order and the opening side first, and makes of each what the options ask
(`visit_eq_sides`). Two runs over one text and one tree go through the same sides: they are compared side
by side, each finding telling by itself which side it is about (`of_finding?`).
-/

namespace TidySpace

/-- Whether the extra data of a finding has a text under a key. -/
def Finding.tells (f : Finding) (key text : String) : Bool :=
  match f.extra with
  | .object ms => (Members.get? ms key).any (·.isText text)
  | _ => false

theorem Finding.tells_eq_false {f : Finding} {key a b : String} (hne : a ≠ b)
    (h : f.tells key a = true) : f.tells key b = false := by
  unfold tells at h ⊢
  split at h
  next ms _ =>
    obtain ⟨v, hGet, hText⟩ := (Option.any_eq_true _ _).1 h
    rw [hGet]
    cases v with
    | text t =>
      obtain rfl : t = a := beq_iff_eq.1 hText
      exact beq_eq_false_iff_ne.2 hne
    | _ => cases hText
  next => cases h

theorem Buffer.isSome_pairFault? {b : Buffer} {left right : Token} {must : Bool} :
    (b.pairFault? left right must).isSome ↔
      left.stopPos.line = right.startPos.line ∧ b.isSpacedPair left right ≠ must := by
  rw [pairFault?]
  split
  next hLine =>
    rw [Option.isSome_iff_ne_none, ne_eq, Gap.fault?_eq_none_iff, ne_comm]
    exact ⟨fun h => ⟨hLine, h⟩, And.right⟩
  next hLine => exact ⟨nofun, fun h => absurd h.1 hLine⟩

namespace CurlySpacing

/-! ### Reports about a side -/

namespace Braces

def pair (t : Braces) : Side → Token × Token
  | .opening => (t.opening, t.second)
  | .closing => (t.penultimate, t.closing)

def brace (t : Braces) : Side → Token
  | .opening => t.opening
  | .closing => t.closing

end Braces

def mustBeSpaced (o : CurlyOptions) (kind : ConstructKind) (t : Braces) : Side → Bool
  | .opening => o.forKind kind
  | .closing => closingSpaced o kind t.penultimate

def report? (s : Source) (o : CurlyOptions) (c : BraceConstruct) (side : Side) : Option Report :=
  (braces? s c).bind fun t =>
    match side with
    | .opening => openingReport? s.toBuffer o c.kind t
    | .closing => closingReport? s.toBuffer o c.kind t

variable {s : Source} {o o' : CurlyOptions} {c : BraceConstruct} {t : Braces} {side : Side} {r : Report}

theorem reports_eq_filterMap (s : Source) (o : CurlyOptions) (c : BraceConstruct) :
    reports s o c = [Side.opening, Side.closing].filterMap (report? s o c) := by
  rw [reports]
  cases hBraces : braces? s c with
  | none => simp [report?, hBraces]
  | some t =>
    have hOpening : report? s o c .opening = openingReport? s.toBuffer o c.kind t := by
      rw [report?, hBraces, Option.bind_some]
    have hClosing : report? s o c .closing = closingReport? s.toBuffer o c.kind t := by
      rw [report?, hBraces, Option.bind_some]
    show (openingReport? _ o c.kind t).toList ++ (closingReport? _ o c.kind t).toList = _
    rw [List.filterMap_cons, List.filterMap_cons, hOpening, hClosing]
    cases openingReport? s.toBuffer o c.kind t <;> cases closingReport? s.toBuffer o c.kind t <;> rfl

/-- **A side is reported** if its braces are found and its pair has a fault. -/
theorem isSome_report? : (report? s o c side).isSome ↔ ∃ t, braces? s c = some t ∧
    (t.pair side).1.stopPos.line = (t.pair side).2.startPos.line ∧
    s.toBuffer.isSpacedPair (t.pair side).1 (t.pair side).2 ≠ mustBeSpaced o c.kind t side := by
  rw [report?, Option.isSome_bind, Option.any_eq_true]
  refine exists_congr fun t => and_congr_right fun _ => ?_
  rw [← Buffer.isSome_pairFault?]
  cases side with
  | opening => exact Bool.eq_iff_iff.1 Option.isSome_map
  | closing => exact Bool.eq_iff_iff.1 Option.isSome_map

theorem report?_congr
    (h : ∀ t, braces? s c = some t → mustBeSpaced o c.kind t side = mustBeSpaced o' c.kind t side) :
    report? s o c side = report? s o' c side := by
  refine Option.bind_congr fun t hBraces => ?_
  have hMust := h t hBraces
  cases side with
  | opening => exact congrArg (fun must => (s.toBuffer.pairFault? t.opening t.second must).map _) hMust
  | closing =>
    exact congrArg (fun must => (s.toBuffer.pairFault? t.penultimate t.closing must).map _) hMust

/-! ### Findings about a side -/

def finding? (path : String) (text : List Char) (root : Node) (o : CurlyOptions)
    (p : BraceConstruct × Side) : Option Finding :=
  (report? (Source.ofText text (some root)) o p.1 p.2).map fun r =>
    r.finding id path (.text "warn") (Buffer.ofText text)

def sides (root : Node) : List (BraceConstruct × Side) :=
  root.constructs.flatMap fun c => [(c, .opening), (c, .closing)]

/-- **A run goes through the sides of the tree.** -/
theorem visit_eq_sides (path : String) (text : List Char) (root : Node) {options : Value}
    (hOptions : readOptions options = .ok o) :
    visit ((Analysis.viewOf path text (some root)).withOptions options) =
      .ok ((sides root).filterMap (finding? path text root o)) := by
  rw [visit_viewOf path text root hOptions, sides, List.filterMap_flatMap, List.map_flatMap]
  refine congrArg (fun f => Except.ok (root.constructs.flatMap f)) (funext fun c => ?_)
  rw [reports_eq_filterMap, List.map_filterMap]
  rfl

variable {path : String} {text : List Char} {root : Node} {f : Finding}

/-- **A finding is about the brace of its side**, and tells the construct and the side. -/
theorem of_finding? (h : finding? path text root o (c, side) = some f) :
    ∃ t, braces? (Source.ofText text (some root)) c = some t ∧ f.start = (t.brace side).start ∧
      f.stop = (t.brace side).stop ∧ f.extra = extraOf c.kind side := by
  obtain ⟨r, hReport, rfl⟩ := Option.map_eq_some_iff.1 h
  obtain ⟨t, hBraces, hSide⟩ := Option.bind_eq_some_iff.1 hReport
  refine ⟨t, hBraces, ?_⟩
  cases side with
  | opening =>
    obtain ⟨fault, -, rfl⟩ := Option.map_eq_some_iff.1 hSide
    exact ⟨rfl, rfl, rfl⟩
  | closing =>
    obtain ⟨fault, -, rfl⟩ := Option.map_eq_some_iff.1 hSide
    exact ⟨rfl, rfl, rfl⟩

theorem tells_of_finding? (h : finding? path text root o (c, side) = some f) (value : String) :
    f.tells "construct" value = (c.kind.name == value) ∧
      f.tells "side" value = (side.name == value) := by
  obtain ⟨-, -, -, -, hExtra⟩ := of_finding? h
  rw [Finding.tells, Finding.tells, hExtra]
  exact ⟨rfl, rfl⟩

/-! ### Lists of options -/

def optionsOf (items : List Value) : Value := .object [("options", .list items)]

/-- **Items that are valid are the options of a run.** -/
theorem readOptions_optionsOf {items : List Value} {config : CurlyConfig}
    (h : CurlyConfig.readItems items = .ok config) :
    readOptions (optionsOf items) = .ok (.ofConfig config) := by
  refine readOptions_of_read ?_
  show CurlyConfig.read (.object [("options", .list items)]) = _
  simp only [CurlyConfig.read, Members.get?_cons, if_pos, CurlyConfig.readList, h]
  rfl

end CurlySpacing

end TidySpace
