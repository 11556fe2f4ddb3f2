import TidySpace.Proofs.Braces
import TidySpace.Proofs.Sides

/-! # Two policies

Under one policy a side must be spaced, under the other it must not. Which sides are looked at is the
same under both: those of a construct with elements, whose braces are found with neighbours, where the
tokens of the side are on one line (`Checkable`). So the two policies split these sides between them, and
report nothing else (`visit_policies`): a side is never right under both, and never wrong under both.
-/

namespace TidySpace

namespace BraceConstruct

/-- The elements without which a construct is not looked at: the last one of an import must be a name of
its list, and other constructs need any. -/
def HasElements (c : BraceConstruct) : Prop :=
  match c.kind with
  | .importDeclaration => ∃ last, c.elements.getLast? = some last ∧ last.kind = .named
  | _ => c.elements ≠ []

/-- The first and the last name of a list. In an import a default may stand before the first. -/
inductive Names (c : BraceConstruct) (first last : Element) : Prop where
  | imports : c.kind = .importDeclaration → c.elements.find? (·.kind == .named) = some first →
      c.elements.getLast? = some last → Names c first last
  | exports : c.kind = .exportDeclaration → c.elements.head? = some first →
      c.elements.getLast? = some last → Names c first last

end BraceConstruct

namespace CurlySpacing

/-! ### Sides that are looked at -/

/-- The tokens at the ends of a construct: the first and the last one inside an object or a pattern, and
those around the names of a list, over a comma that closes the list. -/
inductive Bounds (s : Source) (c : BraceConstruct) (opening closing : Token) : Prop where
  | object : c.kind = .objectPattern ∨ c.kind = .objectExpression →
      s.firstIn? c.node.start c.node.stop = some opening →
      s.lastIn? c.node.start c.node.stop = some closing → Bounds s c opening closing
  | list {first last : Element} : c.Names first last → s.before? first.node.start = some opening →
      afterList? s last.node.stop = some closing → Bounds s c opening closing

/-- A side that is looked at, with the tokens around its construct. -/
structure Checkable (s : Source) (c : BraceConstruct) (side : Side) (t : Braces) : Prop where
  elements : c.HasElements
  bounds : Bounds s c t.opening t.closing
  found : Found s t
  line : (t.pair side).1.stopPos.line = (t.pair side).2.startPos.line

variable {s : Source} {c : BraceConstruct} {t : Braces}

theorem bounds_of_braces? (h : braces? s c = some t) :
    c.HasElements ∧ Bounds s c t.opening t.closing := by
  obtain ⟨kind, node, elements⟩ := c
  have hSome : elements ≠ [] := by
    rintro rfl
    cases (braces?_nil rfl).symm.trans h
  obtain ⟨first, hFirst⟩ := Option.isSome_iff_exists.1 (List.isSome_head?.2 hSome)
  have hLast := List.getLast?_eq_some_getLast hSome
  cases kind with
  | objectPattern =>
    rw [braces?_pattern hSome, bracesOf?_eq_some] at h
    exact ⟨hSome, .object (Or.inl rfl) h.1 h.2.1⟩
  | objectExpression =>
    rw [braces?_object hSome, bracesOf?_eq_some] at h
    exact ⟨hSome, .object (Or.inr rfl) h.1 h.2.1⟩
  | exportDeclaration =>
    rw [braces?_export hFirst hLast, bracesAround?, bracesOf?_eq_some] at h
    exact ⟨hSome, .list (.exports rfl hFirst hLast) h.1 h.2.1⟩
  | importDeclaration =>
    rw [braces?_of_getLast? hLast] at h
    split at h
    next hNamed =>
      obtain ⟨node, hNode, h⟩ := Option.bind_eq_some_iff.1 h
      obtain ⟨first, hFirst, rfl⟩ := Option.map_eq_some_iff.1 hNode
      rw [bracesAround?, bracesOf?_eq_some] at h
      exact ⟨⟨_, hLast, hNamed⟩, .list (.imports rfl hFirst hLast) h.1 h.2.1⟩
    next => cases h

/-- **The braces of a construct** are found if it has the elements it needs, and the tokens at its ends
are braces with neighbours. -/
theorem braces?_eq_some_iff : braces? s c = some t ↔
    c.HasElements ∧ Bounds s c t.opening t.closing ∧ Found s t := by
  constructor
  · intro h
    obtain ⟨hElements, hBounds⟩ := bounds_of_braces? h
    exact ⟨hElements, hBounds, found_of_braces? h⟩
  · rintro ⟨hElements, hBounds, hFound⟩
    obtain ⟨kind, node, elements⟩ := c
    have hBraces : ∀ first last, first = some t.opening → last = some t.closing →
        bracesOf? s first last = some t := by
      intro first last hFirst hLast
      exact bracesOf?_eq_some.2 ⟨hFirst, hLast, hFound.opening_text, hFound.closing_text,
        hFound.second, hFound.penultimate⟩
    cases hBounds with
    | object hKind hFirst hLast =>
      rcases hKind with rfl | rfl
      · rw [braces?_pattern hElements]
        exact hBraces _ _ hFirst hLast
      · rw [braces?_object hElements]
        exact hBraces _ _ hFirst hLast
    | list hNames hBefore hAfter =>
      cases hNames with
      | imports hKind hFirst hLast =>
        obtain rfl : kind = .importDeclaration := hKind
        obtain ⟨e, hEnd, hNamed⟩ := hElements
        obtain rfl := Option.some.inj (hLast.symm.trans hEnd)
        rw [braces?_import (by rw [firstNamed?, hFirst]; rfl) hLast hNamed]
        exact hBraces _ _ hBefore hAfter
      | exports hKind hFirst hLast =>
        obtain rfl : kind = .exportDeclaration := hKind
        rw [braces?_export hFirst hLast]
        exact hBraces _ _ hBefore hAfter

/-! ### The policies -/

def under (policy : Policy) : CurlyOptions := .ofConfig ⟨some policy, {}⟩

theorem mustBeSpaced_under (policy : Policy) (kind : ConstructKind) (t : Braces) (side : Side) :
    mustBeSpaced (under policy) kind t side = policy.spaced := by
  cases policy <;> cases kind <;> cases side <;> rfl

theorem readOptions_policy (policy : Policy) :
    readOptions (optionsOf [.text policy.name]) = .ok (under policy) := by
  cases policy
  · exact readOptions_optionsOf rfl
  · exact readOptions_optionsOf rfl

variable {path : String} {text : List Char} {root : Node} {side : Side}

/-- **A policy reports a side** that is looked at if its pair is not spaced as the policy asks. -/
theorem isSome_finding?_under {policy : Policy} :
    (finding? path text root (under policy) (c, side)).isSome ↔
      ∃ t, Checkable (Source.ofText text (some root)) c side t ∧
        (Buffer.ofText text).isSpacedPair (t.pair side).1 (t.pair side).2 ≠ policy.spaced := by
  rw [finding?, Option.isSome_map, isSome_report?]
  refine exists_congr fun t => ?_
  rw [mustBeSpaced_under, braces?_eq_some_iff]
  constructor
  · rintro ⟨⟨hElements, hBounds, hFound⟩, hLine, hSpaced⟩
    exact ⟨⟨hElements, hBounds, hFound, hLine⟩, hSpaced⟩
  · rintro ⟨⟨hElements, hBounds, hFound, hLine⟩, hSpaced⟩
    exact ⟨⟨hElements, hBounds, hFound⟩, hLine, hSpaced⟩

theorem Checkable.eq {u : Braces} (h : Checkable s c side t) (h' : Checkable s c side u) : t = u := by
  have hT := braces?_eq_some_iff.2 ⟨h.elements, h.bounds, h.found⟩
  have hU := braces?_eq_some_iff.2 ⟨h'.elements, h'.bounds, h'.found⟩
  exact Option.some.inj (hT.symm.trans hU)

/-- **The two policies split the sides between them.** A run under a policy makes at most one finding of
each side, in document order, and nothing else. No side has a finding under both policies, and it has one
under one of them just when it is looked at; the finding is about the brace of the side. -/
theorem visit_policies (path : String) (text : List Char) (root : Node) :
    (∀ policy : Policy,
      visit ((Analysis.viewOf path text (some root)).withOptions (optionsOf [.text policy.name])) =
        .ok ((sides root).filterMap (finding? path text root (under policy)))) ∧
    ∀ c ∈ root.constructs, ∀ side : Side,
      (∀ policy policy' : Policy, (finding? path text root (under policy) (c, side)).isSome →
        (finding? path text root (under policy') (c, side)).isSome → policy = policy') ∧
      ((∃! policy : Policy, (finding? path text root (under policy) (c, side)).isSome) ↔
        ∃ t, Checkable (Source.ofText text (some root)) c side t) ∧
      ∀ (policy : Policy) (f : Finding), finding? path text root (under policy) (c, side) = some f →
        ∃ t, Checkable (Source.ofText text (some root)) c side t ∧ f.start = (t.brace side).start ∧
          f.stop = (t.brace side).stop ∧ f.extra = extraOf c.kind side := by
  refine ⟨fun policy => visit_eq_sides path text root (readOptions_policy policy), ?_⟩
  intro c _ side
  have hOne : ∀ policy policy' : Policy, (finding? path text root (under policy) (c, side)).isSome →
      (finding? path text root (under policy') (c, side)).isSome → policy = policy' := by
    intro policy policy' h h'
    obtain ⟨t, hSide, hSpaced⟩ := isSome_finding?_under.1 h
    obtain ⟨u, hSide', hSpaced'⟩ := isSome_finding?_under.1 h'
    rw [hSide.eq hSide'] at hSpaced
    revert hSpaced hSpaced'
    cases policy <;> cases policy' <;> cases Buffer.isSpacedPair _ _ _ <;> decide
  refine ⟨hOne, ⟨?_, ?_⟩, ?_⟩
  · rintro ⟨policy, hSome, -⟩
    obtain ⟨t, hSide, -⟩ := isSome_finding?_under.1 hSome
    exact ⟨t, hSide⟩
  · rintro ⟨t, hSide⟩
    -- The side is reported under the policy that its gap does not meet.
    obtain ⟨policy, hPolicy⟩ : ∃ policy : Policy,
        (Buffer.ofText text).isSpacedPair (t.pair side).1 (t.pair side).2 ≠ policy.spaced := by
      cases Buffer.isSpacedPair _ _ _
      · exact ⟨.always, by decide⟩
      · exact ⟨.never, by decide⟩
    have hSome : (finding? path text root (under policy) (c, side)).isSome :=
      isSome_finding?_under.2 ⟨t, hSide, hPolicy⟩
    exact ⟨policy, hSome, fun other hOther => hOne other policy hOther hSome⟩
  · intro policy f hFinding
    obtain ⟨t, hBraces, hStart, hStop, hExtra⟩ := of_finding? hFinding
    obtain ⟨u, hSide, -⟩ := isSome_finding?_under.1 (Option.isSome_iff_exists.2 ⟨f, hFinding⟩)
    have hU := braces?_eq_some_iff.2 ⟨hSide.elements, hSide.bounds, hSide.found⟩
    obtain rfl := Option.some.inj (hBraces.symm.trans hU)
    exact ⟨t, hSide, hStart, hStop, hExtra⟩

def lopsided : Node :=
  ⟨"object", true, 0, 7, [⟨"\x7b", false, 0, 1, []⟩, ⟨"pair", true, 1, 5, []⟩,
    ⟨"\x7d", false, 6, 7, []⟩]⟩

def lopsidedConstruct : BraceConstruct :=
  ⟨.objectExpression, lopsided, [⟨.property, ⟨"pair", true, 1, 5, []⟩⟩]⟩

/-- The closing side is reported where there must be no space, so not where there must be one. -/
theorem visit_policies_lopsided :
    (∃ t, Checkable (Source.ofText "\x7ba: 1 \x7d".toList (some lopsided)) lopsidedConstruct
        .closing t) ∧
      (finding? "a.js" "\x7ba: 1 \x7d".toList lopsided (under .never)
        (lopsidedConstruct, .closing)).isSome ∧
      ¬ (finding? "a.js" "\x7ba: 1 \x7d".toList lopsided (under .always)
        (lopsidedConstruct, .closing)).isSome := by
  have hMem : lopsidedConstruct ∈ lopsided.constructs := by
    rw [Node.constructs_eq]
    exact List.mem_singleton_self _
  have hNever : (finding? "a.js" "\x7ba: 1 \x7d".toList lopsided (under .never)
      (lopsidedConstruct, .closing)).isSome := by cbv
  obtain ⟨-, hSides⟩ := visit_policies "a.js" "\x7ba: 1 \x7d".toList lopsided
  obtain ⟨hOne, hOnce, -⟩ := hSides lopsidedConstruct hMem .closing
  refine ⟨hOnce.1 ⟨.never, hNever, fun policy h => hOne policy .never h hNever⟩, hNever, fun h => ?_⟩
  cases hOne .always .never h hNever

end CurlySpacing

end TidySpace
