import Mathlib
import TidySpace.Proofs.Gaps
import TidySpace.Proofs.Shapes

/-! # The rule finds a construct's own braces

The rule finds braces by binary searches over all tokens of the file: from the ends of an object, and
from the first and the last name of a list, over a comma that closes the list. If the construct is
shaped as the grammar makes it and no comment or atomic node is around it, these searches end at its
own braces.

* `exists_owns_object`, `exists_owns_list`: the searches inside an object and around a list.
* `exists_owns`: the braces that are found for a construct with elements between braces are its own.
* `visit_eq_owned`: so the findings are about the own braces of the constructs with such elements,
  in document order, the opening side first, and a side has one where its gap is on one line and is
  not as it must be.
-/

namespace TidySpace

/-! ### Searches among the leaves of a tree -/

def Node.tokenIn (b : Buffer) (n : Node) : Token := b.token n.kind n.start n.stop

namespace Source

variable {text : List Char} {root : Node} {xs ys : List Node} {x : Nat}

theorem after?_leaves (hLeaves : root.leaves = xs ++ ys) (hXs : ∀ m ∈ xs, m.start < x)
    (hYs : ∀ m ∈ ys, x ≤ m.start) :
    (Source.ofText text (some root)).after? x = ys.head?.map (Node.tokenIn (Buffer.ofText text)) := by
  have hTokens := tokens_ofText text root
  rw [hLeaves, List.map_append] at hTokens
  rw [after?_append hTokens, List.head?_map]
  · rfl
  · exact List.forall_mem_map.2 fun m hm => Int.ofNat_lt.2 (hXs m hm)
  · exact List.forall_mem_map.2 fun m hm => Int.ofNat_le.2 (hYs m hm)

theorem before?_leaves (hLeaves : root.leaves = xs ++ ys) (hXs : ∀ m ∈ xs, m.stop ≤ x)
    (hYs : ∀ m ∈ ys, x < m.stop) :
    (Source.ofText text (some root)).before? x =
      xs.getLast?.map (Node.tokenIn (Buffer.ofText text)) := by
  have hTokens := tokens_ofText text root
  rw [hLeaves, List.map_append] at hTokens
  rw [before?_append hTokens, List.getLast?_map]
  · rfl
  · exact List.forall_mem_map.2 fun m hm => Int.ofNat_le.2 (hXs m hm)
  · exact List.forall_mem_map.2 fun m hm => Int.ofNat_lt.2 (hYs m hm)

end Source

namespace CurlySpacing

/-! ### Braces with their neighbours -/

/-- A construct's own braces, with the tokens next to them: the tokens of the first and the last part
of its list, the token behind the one and the token before the other. -/
structure Owns (s : Source) (c : BraceConstruct) (t : Braces) : Prop where
  list : ∃ n first last, c.list? = some n ∧ n.parts.head? = some first ∧
    n.parts.getLast? = some last ∧ t.opening = first.tokenIn s.toBuffer ∧
    t.closing = last.tokenIn s.toBuffer
  second : s.Adjacent t.opening t.second
  penultimate : s.Adjacent t.penultimate t.closing

variable {s : Source} {front mid back : List Token} {opening closing : Token}

theorem exists_bracesOf? (hOrderly : s.Orderly)
    (hTokens : s.tokens = front ++ opening :: (mid ++ closing :: back))
    (hOpening : opening.text = ['\x7b']) (hClosing : closing.text = ['\x7d']) :
    ∃ t, bracesOf? s (some opening) (some closing) = some t ∧ t.opening = opening ∧
      t.closing = closing ∧ s.Adjacent t.opening t.second ∧ s.Adjacent t.penultimate t.closing := by
  have hTokens' : s.tokens = (front ++ opening :: mid) ++ closing :: back := by
    rw [hTokens, List.append_assoc]
    rfl
  obtain ⟨second, hSecond⟩ : ∃ second, s.after? opening.stop = some second := by
    rw [hOrderly.after?_stop hTokens]
    exact ⟨_, List.head?_eq_some_head (by simp)⟩
  obtain ⟨penultimate, hPenultimate⟩ : ∃ penultimate, s.before? closing.start = some penultimate := by
    rw [hOrderly.before?_start hTokens']
    exact ⟨_, List.getLast?_eq_some_getLast (by simp)⟩
  refine ⟨⟨opening, second, penultimate, closing⟩, ?_, rfl, rfl,
    hOrderly.adjacent_after (by simp [hTokens]) hSecond,
    hOrderly.adjacent_before (by simp [hTokens]) hPenultimate⟩
  exact bracesOf?_eq_some.2 ⟨rfl, rfl, hOpening, hClosing, hSecond, hPenultimate⟩

/-! ### Where the searches end -/

/-- The tokens of a tree around the braces of a node and between them, and where its parts lie. -/
structure Around (root n first : Node) (inner : List Node) (last : Node) (front back : List Node) :
    Prop where
  leaves : root.leaves = front ++ first :: (Node.leavesAll inner ++ last :: back)
  front_stop : ∀ m ∈ front, m.start < m.stop ∧ m.stop ≤ n.start
  back_start : ∀ m ∈ back, m.start < m.stop ∧ n.stop ≤ m.start
  first_start : n.start ≤ first.start
  first_lt : first.start < first.stop
  inner_laid : Node.Laid first.stop last.start inner
  inner_nested : Node.Nested inner
  last_lt : last.start < last.stop
  last_stop : last.stop ≤ n.stop

variable {text : List Char} {root n m first last : Node} {inner front back : List Node}
  {c : BraceConstruct}

theorem exists_around (hWell : root.WellFormed text) (hExposed : root.Exposed n)
    (hComment : n.isComment = false) (hAtomic : n.isAtomic = false)
    (hBraced : Node.Braced text n first inner last) :
    ∃ front back, Around root n first inner last front back := by
  have hNested := hWell.nested_root
  obtain ⟨front, back, hLeaves, hFront, hBack⟩ :=
    hExposed.exists_braces hNested hComment hAtomic hBraced
  obtain ⟨hLaid, hBelow⟩ := hExposed.nested hNested
  have hParts := hLaid.filter fun m => !m.isComment
  have hNestedParts : Node.Nested n.parts := hBelow.filter _
  rw [← Node.parts, hBraced.parts] at hParts
  rw [hBraced.parts] at hNestedParts
  obtain ⟨hFirst, -, hRest⟩ := hParts
  obtain ⟨hInner, -, hLast⟩ := hRest.cut
  have hForward : ∀ m ∈ root.leaves, m.start < m.stop := by
    intro m hm
    rw [← Node.leavesAll_singleton] at hm
    exact Node.lt_of_mem_leavesAll hm
  rw [hLeaves, List.forall_mem_append, List.forall_mem_cons, List.forall_mem_append,
    List.forall_mem_cons] at hForward
  obtain ⟨hForwardFront, -, -, -, hForwardBack⟩ := hForward
  exact ⟨front, back, hLeaves, fun m hm => ⟨hForwardFront m hm, hFront m hm⟩,
    fun m hm => ⟨hForwardBack m hm, hBack m hm⟩, hFirst, hBraced.opening.lt, hInner,
    (Node.nested_append.1 (Node.nested_cons.1 hNestedParts).2.2).1, hBraced.closing.lt, hLast⟩

namespace Around

variable (h : Around root n first inner last front back)
include h

theorem firstIn?_eq : (Source.ofText text (some root)).firstIn? n.start n.stop =
    some (first.tokenIn (Buffer.ofText text)) := by
  have hFirst := h.first_start
  have hOpening := h.first_lt
  have hInner := h.inner_laid.le
  have hClosing := h.last_lt
  have hLast := h.last_stop
  show ((Source.ofText text (some root)).after? n.start).filter _ = _
  rw [Source.after?_leaves h.leaves fun m hm => by have := h.front_stop m hm; omega]
  · exact Option.filter_some_pos (decide_eq_true (Int.ofNat_le.2 (by omega)))
  · rw [List.forall_mem_cons, List.forall_mem_append, List.forall_mem_cons]
    refine ⟨hFirst, fun m hm => ?_, by omega, fun m hm => ?_⟩
    · have := h.inner_laid.of_mem_leavesAll h.inner_nested m hm
      omega
    · have := h.back_start m hm
      omega

theorem lastIn?_eq : (Source.ofText text (some root)).lastIn? n.start n.stop =
    some (last.tokenIn (Buffer.ofText text)) := by
  have hFirst := h.first_start
  have hOpening := h.first_lt
  have hInner := h.inner_laid.le
  have hClosing := h.last_lt
  have hLast := h.last_stop
  have hCut : root.leaves = (front ++ first :: (Node.leavesAll inner ++ [last])) ++ back := by
    rw [h.leaves]
    simp only [List.append_assoc, List.cons_append, List.nil_append]
  show ((Source.ofText text (some root)).before? n.stop).filter _ = _
  rw [Source.before?_leaves hCut]
  · rw [List.getLast?_append, List.getLast?_cons, List.getLast?_append, List.getLast?_singleton]
    show Option.filter _ (some (last.tokenIn (Buffer.ofText text))) = _
    exact Option.filter_some_pos (decide_eq_true (Int.ofNat_le.2 (by omega)))
  · rw [List.forall_mem_append, List.forall_mem_cons, List.forall_mem_append,
      List.forall_mem_singleton]
    refine ⟨fun m hm => ?_, by omega, fun m hm => ?_, hLast⟩
    · have := h.front_stop m hm
      omega
    · have := h.inner_laid.of_mem_leavesAll h.inner_nested m hm
      omega
  · intro m hm
    have := h.back_start m hm
    omega

theorem before?_eq {a : Node} {rest : List Node} (hInner : inner = a :: rest) :
    (Source.ofText text (some root)).before? a.start =
      some (first.tokenIn (Buffer.ofText text)) := by
  have hFirst := h.first_start
  have hOpening := h.first_lt
  have hClosing := h.last_lt
  have hLast := h.last_stop
  have hLaid := h.inner_laid
  have hNested := h.inner_nested
  rw [hInner] at hLaid hNested
  obtain ⟨hStart, hRest⟩ := hLaid
  have hFrom : Node.Laid a.start last.start (a :: rest) := ⟨Nat.le_refl _, hRest⟩
  have hLe := hFrom.le
  have hMid := hFrom.of_mem_leavesAll hNested
  have hCut : root.leaves = (front ++ [first]) ++ (Node.leavesAll (a :: rest) ++ last :: back) := by
    rw [h.leaves, hInner, List.append_assoc]
    rfl
  rw [Source.before?_leaves hCut]
  · rw [List.getLast?_append, List.getLast?_singleton]
    rfl
  · rw [List.forall_mem_append, List.forall_mem_singleton]
    refine ⟨fun m hm => ?_, hStart⟩
    have := h.front_stop m hm
    omega
  · rw [List.forall_mem_append, List.forall_mem_cons]
    refine ⟨fun m hm => ?_, by omega, fun m hm => ?_⟩
    · have := hMid m hm
      omega
    · have := h.back_start m hm
      omega

/-- The token behind a part of a list is the next one, of the parts behind it or the closing brace. -/
theorem after?_eq {b : Node} {init trail : List Node} (hInner : inner = init ++ b :: trail) :
    (Source.ofText text (some root)).after? b.stop =
      (Node.leavesAll trail ++ last :: back).head?.map (Node.tokenIn (Buffer.ofText text)) := by
  have hFirst := h.first_start
  have hOpening := h.first_lt
  have hClosing := h.last_lt
  have hLast := h.last_stop
  have hLaid := h.inner_laid
  have hNested := h.inner_nested
  rw [hInner] at hLaid hNested
  obtain ⟨hInit, hForward, hBehind⟩ := hLaid.cut
  obtain ⟨hNestedInit, hNestedRest⟩ := Node.nested_append.1 hNested
  obtain ⟨hLaidB, hNestedB, hNestedTrail⟩ := Node.nested_cons.1 hNestedRest
  have hUpTo : Node.Laid first.stop b.stop (init ++ [b]) :=
    hInit.append ⟨Nat.le_refl _, hForward, Nat.le_refl b.stop⟩
  have hMid := hUpTo.of_mem_leavesAll
    (Node.nested_append.2 ⟨hNestedInit, Node.nested_cons.2 ⟨hLaidB, hNestedB, Node.nested_nil⟩⟩)
  have hTail := hBehind.of_mem_leavesAll hNestedTrail
  have hLe := hInit.le
  have hLe' := hBehind.le
  have hCut : root.leaves = (front ++ first :: Node.leavesAll (init ++ [b])) ++
      (Node.leavesAll trail ++ last :: back) := by
    rw [h.leaves, hInner, Node.leavesAll_append, Node.leavesAll_append, Node.leavesAll,
      Node.leavesAll_singleton]
    simp only [List.append_assoc, List.cons_append]
  refine Source.after?_leaves hCut ?_ ?_
  · rw [List.forall_mem_append, List.forall_mem_cons]
    refine ⟨fun m hm => ?_, by omega, fun m hm => ?_⟩
    · have := h.front_stop m hm
      omega
    · have := hMid m hm
      omega
  · rw [List.forall_mem_append, List.forall_mem_cons]
    refine ⟨fun m hm => (hTail m hm).1, by omega, fun m hm => ?_⟩
    have := h.back_start m hm
    omega

end Around

/-! ### The braces that are found -/

theorem exists_owns_of_around (hWell : root.WellFormed text)
    (h : Around root n first inner last front back) (hBraced : Node.Braced text n first inner last)
    (hList : c.list? = some n) :
    ∃ t, bracesOf? (Source.ofText text (some root)) (some (first.tokenIn (Buffer.ofText text)))
        (some (last.tokenIn (Buffer.ofText text))) = some t ∧
      Owns (Source.ofText text (some root)) c t := by
  have hTokens := Source.tokens_ofText text root
  rw [h.leaves, List.map_append, List.map_cons, List.map_append, List.map_cons] at hTokens
  obtain ⟨t, hFound, hOpening, hClosing, hSecond, hPenultimate⟩ := exists_bracesOf?
    (Source.orderly_ofText hWell) hTokens hBraced.opening.text hBraced.closing.text
  refine ⟨t, hFound, ⟨n, first, last, hList, ?_, ?_, hOpening, hClosing⟩, hSecond, hPenultimate⟩
  · rw [hBraced.parts]
    rfl
  · rw [hBraced.parts, List.getLast?_cons, List.getLast?_append]
    rfl

/-- **From the ends of an object** the searches come to its own braces. -/
theorem exists_owns_object (hWell : root.WellFormed text) (hExposed : root.Exposed n)
    (hComment : n.isComment = false) (hAtomic : n.isAtomic = false)
    (hBraced : Node.Braced text n first inner last) (hList : c.list? = some n) :
    ∃ t, bracesOf? (Source.ofText text (some root))
        ((Source.ofText text (some root)).firstIn? n.start n.stop)
        ((Source.ofText text (some root)).lastIn? n.start n.stop) = some t ∧
      Owns (Source.ofText text (some root)) c t := by
  obtain ⟨front, back, hAround⟩ := exists_around hWell hExposed hComment hAtomic hBraced
  rw [hAround.firstIn?_eq, hAround.lastIn?_eq]
  exact exists_owns_of_around hWell hAround hBraced hList

/-- **From the names of a list** the searches come to its own braces, over a comma behind the last
name if there is one. -/
theorem exists_owns_list (hWell : root.WellFormed text) (hExposed : root.Exposed n)
    (hComment : n.isComment = false) (hAtomic : n.isAtomic = false)
    (hBraced : Node.Braced text n first inner last) (hList : c.list? = some n) {kind : String}
    (hKind : kind.toList.length ≠ 1) (hNames : Node.Names text kind inner) :
    ∃ a b t, (Node.names kind inner).head? = some a ∧ (Node.names kind inner).getLast? = some b ∧
      bracesAround? (Source.ofText text (some root)) a.start b.stop = some t ∧
      Owns (Source.ofText text (some root)) c t := by
  obtain ⟨front, back, hAround⟩ := exists_around hWell hExposed hComment hAtomic hBraced
  obtain ⟨a, rest, hRest, hHead⟩ := hNames.exists_first
  obtain ⟨init, b, trail, hTrail, hEnd, hComma⟩ := hNames.exists_last hKind
  obtain ⟨t, hFound, hOwns⟩ := exists_owns_of_around hWell hAround hBraced hList
  refine ⟨a, b, t, hHead, hEnd, ?_, hOwns⟩
  have hAfter : afterList? (Source.ofText text (some root)) b.stop =
      some (last.tokenIn (Buffer.ofText text)) := by
    rw [afterList?, hAround.after?_eq hTrail]
    rcases hComma with rfl | ⟨comma, rfl, hMark⟩
    · show (if (last.tokenIn (Buffer.ofText text)).text = [','] then _ else _) = _
      rw [show (last.tokenIn (Buffer.ofText text)).text = _ from hBraced.closing.text,
        if_neg (by decide)]
    · -- The comma is a token, and the brace is the one behind it.
      have hComma : inner = (init ++ [b]) ++ comma :: [] := by rw [hTrail, List.append_assoc]; rfl
      rw [Node.leavesAll_singleton, hMark.leaves]
      show (if (comma.tokenIn (Buffer.ofText text)).text = [','] then _ else _) = _
      rw [show (comma.tokenIn (Buffer.ofText text)).text = _ from hMark.text, if_pos rfl]
      exact hAround.after?_eq hComma
  rw [bracesAround?, hAround.before?_eq hRest, hAfter]
  exact hFound

/-! ### Elements and names -/

theorem names_parts (hBraced : Node.Braced text n first inner last) {kind : String}
    (hKind : kind.toList.length ≠ 1) : Node.names kind n.parts = Node.names kind inner := by
  rw [hBraced.parts, Node.names_of_mark hBraced.opening hKind, Node.names_append,
    Node.names_of_mark hBraced.closing hKind]
  exact List.append_nil _

theorem specifiers_eq (n : Node) (kind : String) :
    n.specifiers kind = (Node.names kind n.parts).map (⟨.named, ·⟩) := by
  rw [Node.specifiers, Node.namedChildren_eq, Node.names]

theorem importedElements_eq {clause : Node} (hClause : m.child? "import_clause" = some clause)
    (hKind : n.kind = "named_imports")
    (hShape : clause.parts = [n] ∨ ∃ name comma, clause.parts = [name, comma, n] ∧
      name.kind = "identifier" ∧ Node.IsMark text ',' comma) :
    ∃ front back, m.importedElements = front ++ back ∧ (∀ e ∈ front, e.kind = .default) ∧
      (back = [] ∨ back = n.specifiers "import_specifier") := by
  have hList : ([n].filter Node.named).flatMap Node.importElements = [] ∨
      ([n].filter Node.named).flatMap Node.importElements = n.specifiers "import_specifier" := by
    rw [List.filter_cons]
    split
    next =>
      right
      rw [List.filter_nil, List.flatMap_singleton, Node.importElements, hKind, if_neg (by decide),
        if_neg (by decide), if_pos rfl]
    next => exact Or.inl rfl
  rw [Node.importedElements, hClause]
  show ∃ front back, clause.namedChildren.flatMap Node.importElements = _ ∧ _
  rw [Node.namedChildren_eq]
  rcases hShape with hParts | ⟨name, comma, hParts, hName, hMark⟩
  · exact ⟨[], _, by rw [hParts, List.nil_append], nofun, hList⟩
  · have hDefault : Node.importElements name = [⟨.default, name⟩] := by
      rw [Node.importElements, if_pos hName]
    have hNone : Node.importElements comma = [] := by
      rw [Node.importElements, if_neg (hMark.kind_ne (by decide)),
        if_neg (hMark.kind_ne (by decide)), if_neg (hMark.kind_ne (by decide))]
    refine ⟨([name, comma].filter Node.named).flatMap Node.importElements, _, ?_, ?_, hList⟩
    · rw [hParts, ← List.flatMap_append, ← List.filter_append]
      rfl
    · intro e he
      obtain ⟨k, hk, hOf⟩ := List.mem_flatMap.1 he
      rcases List.mem_cons.1 (List.mem_filter.1 hk).1 with rfl | hk
      · rw [hDefault] at hOf
        rw [List.mem_singleton.1 hOf]
      · rw [List.mem_singleton.1 hk, hNone] at hOf
        exact absurd hOf List.not_mem_nil

theorem find?_named_imports {clause : Node} (hKind : n.kind = "named_imports")
    (hShape : clause.parts = [n] ∨ ∃ name comma, clause.parts = [name, comma, n] ∧
      name.kind = "identifier" ∧ Node.IsMark text ',' comma) :
    clause.parts.find? (·.kind == "named_imports") = some n := by
  rcases hShape with hParts | ⟨name, comma, hParts, hName, hMark⟩
  · rw [hParts, List.find?_cons, beq_iff_eq.2 hKind]
  · rw [hParts, List.find?_cons, hName, List.find?_cons,
      beq_eq_false_iff_ne.2 (hMark.kind_ne (by decide)), List.find?_cons, beq_iff_eq.2 hKind]
    rfl

/-! ### Braces of each kind of construct -/

variable {s : Source}

theorem braces?_object {elements : List Element} (h : elements ≠ []) :
    braces? s ⟨.objectExpression, n, elements⟩ =
      bracesOf? s (s.firstIn? n.start n.stop) (s.lastIn? n.start n.stop) := by
  obtain ⟨e, rest, rfl⟩ := List.exists_cons_of_ne_nil h
  rfl

theorem braces?_pattern {elements : List Element} (h : elements ≠ []) :
    braces? s ⟨.objectPattern, n, elements⟩ =
      bracesOf? s (s.firstIn? n.start n.stop) (s.lastIn? n.start n.stop) := by
  obtain ⟨e, rest, rfl⟩ := List.exists_cons_of_ne_nil h
  rfl

theorem braces?_export {elements : List Element} {a b : Element} (hFirst : elements.head? = some a)
    (hLast : elements.getLast? = some b) :
    braces? s ⟨.exportDeclaration, n, elements⟩ = bracesAround? s a.node.start b.node.stop := by
  unfold braces?
  rw [hFirst, hLast]

theorem braces?_of_getLast? {elements : List Element} {b : Element}
    (hLast : elements.getLast? = some b) :
    braces? s ⟨.importDeclaration, n, elements⟩ = if b.kind = .named then
        (firstNamed? ⟨.importDeclaration, n, elements⟩).bind fun a =>
          bracesAround? s a.start b.node.stop
      else none := by
  unfold braces?
  rw [hLast]

theorem braces?_import {elements : List Element} {a : Node} {b : Element}
    (hFirst : firstNamed? ⟨.importDeclaration, n, elements⟩ = some a)
    (hLast : elements.getLast? = some b) (hKind : b.kind = .named) :
    braces? s ⟨.importDeclaration, n, elements⟩ = bracesAround? s a.start b.node.stop := by
  rw [braces?_of_getLast? hLast, if_pos hKind, hFirst]
  rfl

theorem firstNamed?_append {front : List Element} {a : Node} {as : List Node}
    (hFront : ∀ e ∈ front, e.kind = .default) :
    firstNamed? ⟨.importDeclaration, n, front ++ (a :: as).map (⟨.named, ·⟩)⟩ = some a := by
  have hNone : front.find? (·.kind == .named) = none := by
    refine List.find?_eq_none.2 fun e he => ?_
    rw [hFront e he]
    decide
  rw [firstNamed?, List.find?_append, hNone]
  rfl

/-! ### Own braces -/

theorem exists_of_isFilled (h : c.isFilled = true) :
    ∃ e ∈ c.elements, e.kind = .property ∨ e.kind = .named := by
  obtain ⟨e, he, hKind⟩ := List.any_eq_true.1 h
  rw [Bool.or_eq_true, beq_iff_eq, beq_iff_eq] at hKind
  exact ⟨e, he, hKind⟩

theorem exists_owns_import (hWell : root.WellFormed text) (hKind : m.kind = "import_statement")
    (hExposed : root.Exposed m)
    (hFilled : BraceConstruct.isFilled ⟨.importDeclaration, m, m.importedElements⟩ = true)
    (hShaped : BraceConstruct.Shaped text ⟨.importDeclaration, m, m.importedElements⟩) :
    ∃ t, braces? (Source.ofText text (some root)) ⟨.importDeclaration, m, m.importedElements⟩ = some t ∧
      Owns (Source.ofText text (some root)) ⟨.importDeclaration, m, m.importedElements⟩ t := by
  obtain ⟨clause, n, first, inner, last, hClause, hList, hShape, hBraced, hNames⟩ := hShaped
  replace hClause : m.child? "import_clause" = some clause := hClause
  obtain ⟨hComment, hAtomic⟩ := @Node.plain_of_kind m (by rw [hKind]; decide)
  obtain ⟨hComment', hAtomic'⟩ :=
    @Node.plain_of_kind clause (by rw [Node.kind_of_child? hClause]; decide)
  obtain ⟨hComment'', hAtomic''⟩ := @Node.plain_of_kind n (by rw [hList]; decide)
  have hFind := find?_named_imports hList hShape
  have hExposed' : root.Exposed n := by
    refine .child (.child hExposed hComment hAtomic (Node.mem_of_child? hClause)) hComment' hAtomic' ?_
    exact (List.mem_filter.1 (List.mem_of_find?_eq_some hFind)).1
  obtain ⟨a, b, t, hHead, hLast, hFound, hOwns⟩ :=
    @exists_owns_list text root n first last inner ⟨.importDeclaration, m, m.importedElements⟩ hWell
      hExposed' hComment'' hAtomic'' hBraced (by rw [BraceConstruct.list?, hClause]; exact hFind)
      "import_specifier" (by decide) hNames
  refine ⟨t, ?_, hOwns⟩
  obtain ⟨front, back, hElements, hFront, hBack⟩ := importedElements_eq hClause hList hShape
  rcases hBack with rfl | rfl
  · -- A default alone is no element between braces.
    rw [List.append_nil] at hElements
    obtain ⟨e, he, hBetween⟩ := exists_of_isFilled hFilled
    have hDefault := hFront e (hElements ▸ he)
    rcases hBetween with hProperty | hNamed
    · cases hProperty.symm.trans hDefault
    · cases hNamed.symm.trans hDefault
  · obtain ⟨as, hCons⟩ := List.head?_eq_some_iff.1 hHead
    rw [specifiers_eq, names_parts hBraced (by decide)] at hElements
    rw [hElements, ← hFound]
    refine braces?_import (b := ⟨.named, b⟩) ?_ ?_ rfl
    · rw [hCons]
      exact firstNamed?_append hFront
    · rw [List.getLast?_append, List.getLast?_map, hLast]
      rfl

theorem exists_owns_export (hWell : root.WellFormed text) (hKind : m.kind = "export_statement")
    (hExposed : root.Exposed m)
    (hShaped : BraceConstruct.Shaped text ⟨.exportDeclaration, m, m.exportedElements⟩) :
    ∃ t, braces? (Source.ofText text (some root)) ⟨.exportDeclaration, m, m.exportedElements⟩ = some t ∧
      Owns (Source.ofText text (some root)) ⟨.exportDeclaration, m, m.exportedElements⟩ t := by
  obtain ⟨n, first, inner, last, hClause, hBraced, hNames⟩ := hShaped
  replace hClause : m.child? "export_clause" = some n := hClause
  obtain ⟨hComment, hAtomic⟩ := @Node.plain_of_kind m (by rw [hKind]; decide)
  obtain ⟨hComment', hAtomic'⟩ := @Node.plain_of_kind n (by rw [Node.kind_of_child? hClause]; decide)
  obtain ⟨a, b, t, hHead, hLast, hFound, hOwns⟩ :=
    @exists_owns_list text root n first last inner ⟨.exportDeclaration, m, m.exportedElements⟩ hWell
      (hExposed.child hComment hAtomic (Node.mem_of_child? hClause)) hComment' hAtomic' hBraced
      hClause "export_specifier" (by decide) hNames
  refine ⟨t, ?_, hOwns⟩
  have hElements : m.exportedElements =
      (Node.names "export_specifier" inner).map (⟨.named, ·⟩) := by
    rw [Node.exportedElements, hClause, ← names_parts hBraced (by decide), ← specifiers_eq]
  rw [hElements, ← hFound]
  refine braces?_export (a := ⟨.named, a⟩) (b := ⟨.named, b⟩) ?_ ?_
  · rw [List.head?_map, hHead]
    rfl
  · rw [List.getLast?_map, hLast]
    rfl

/-- **The braces that are found for a construct with elements between braces are its own.** -/
theorem exists_owns (hWell : root.WellFormed text) (hc : c ∈ root.constructs)
    (hFilled : c.isFilled = true) (hExposed : root.Exposed c.node) (hShaped : c.Shaped text) :
    ∃ t, braces? (Source.ofText text (some root)) c = some t ∧
      Owns (Source.ofText text (some root)) c t := by
  obtain ⟨e, he, -⟩ := exists_of_isFilled hFilled
  have hSome := List.ne_nil_of_mem he
  obtain ⟨n, hn, hConstruct⟩ := Node.mem_constructs.1 hc
  rcases Node.construct?_eq_some hConstruct with
    ⟨hKind, rfl⟩ | ⟨hKind, rfl⟩ | ⟨hKind, rfl⟩ | ⟨hKind, rfl⟩
  · obtain ⟨first, inner, last, hBraced⟩ := hShaped
    obtain ⟨hComment, hAtomic⟩ := @Node.plain_of_kind n (by rw [hKind]; decide)
    rw [braces?_object hSome]
    exact exists_owns_object hWell hExposed hComment hAtomic hBraced rfl
  · obtain ⟨first, inner, last, hBraced⟩ := hShaped
    obtain ⟨hComment, hAtomic⟩ := @Node.plain_of_kind n (by rw [hKind]; decide)
    rw [braces?_pattern hSome]
    exact exists_owns_object hWell hExposed hComment hAtomic hBraced rfl
  · exact exists_owns_import hWell hKind hExposed hFilled hShaped
  · exact exists_owns_export hWell hKind hExposed hShaped

/-- Without elements between braces there are none. -/
theorem braces?_eq_none (hc : c ∈ root.constructs) (hFilled : c.isFilled = false) :
    braces? s c = none := by
  have hNone : ∀ e ∈ c.elements, e.kind ≠ .property ∧ e.kind ≠ .named := by
    intro e he
    have hKind := List.any_eq_false.1 hFilled e he
    rw [Bool.or_eq_true, beq_iff_eq, beq_iff_eq, not_or] at hKind
    exact hKind
  obtain ⟨n, hn, hConstruct⟩ := Node.mem_constructs.1 hc
  rcases Node.construct?_eq_some hConstruct with ⟨-, rfl⟩ | ⟨-, rfl⟩ | ⟨-, rfl⟩ | ⟨-, rfl⟩
  · refine braces?_nil (List.eq_nil_iff_forall_not_mem.2 fun e he => ?_)
    obtain ⟨m, -, rfl⟩ := List.mem_map.1 he
    exact (hNone _ he).1 rfl
  · refine braces?_nil (List.eq_nil_iff_forall_not_mem.2 fun e he => ?_)
    obtain ⟨m, -, rfl⟩ := List.mem_map.1 he
    exact (hNone _ he).1 rfl
  · cases hLast : n.importedElements.getLast? with
    | none => exact braces?_nil (List.getLast?_eq_none_iff.1 hLast)
    | some last =>
      rw [braces?_of_getLast? hLast, if_neg (hNone last (List.mem_of_getLast? hLast)).2]
  · refine braces?_nil (List.eq_nil_iff_forall_not_mem.2 fun e he => ?_)
    have hOther := (hNone e he).2
    replace he : e ∈ n.exportedElements := he
    unfold Node.exportedElements at he
    split at he
    next =>
      obtain ⟨m, -, rfl⟩ := List.mem_map.1 he
      exact hOther rfl
    next => exact List.not_mem_nil he

/-! ### Findings about own braces -/

/-- What is reported about neighbours: there is a report where they are on one line and their gap is
not as it must be. -/
def pairReports (b : Buffer) (left right : Token) (must : Bool) (report : GapFault → Report) :
    List Report :=
  if left.stopPos.line = right.startPos.line ∧ (Gap.Spaced (b.gap left right) ↔ must = false) then
    [report (if must then .missing else .unexpected)]
  else []

/-- What is reported about a construct with its own braces. On the closing side the requirement is the
opposite one if an exception is in force for the token before the brace. -/
def ownReports (b : Buffer) (o : CurlyOptions) (kind : ConstructKind) (t : Braces) : List Report :=
  pairReports b t.opening t.second (o.forKind kind) (fun fault =>
    { location := .place t.opening.stopPos.line t.opening.stopPos.column
      message := message .opening fault
      fix := mend b fault t.opening t.second t.opening.stop
      span := some (t.opening.start, t.opening.stop)
      extra := extraOf kind .opening }) ++
  pairReports b t.penultimate t.closing
    (o.forKind kind != ((o.arraysException && t.penultimate.text == [']']) ||
      (o.objectsException && t.penultimate.text == ['\x7d']))) (fun fault =>
    { location := .token t.closing
      message := message .closing fault
      fix := mend b fault t.penultimate t.closing t.closing.start
      extra := extraOf kind .closing })

theorem pairReports_eq (b : Buffer) (left right : Token) (must : Bool) (report : GapFault → Report) :
    ((b.pairFault? left right must).map report).toList = pairReports b left right must report := by
  have hSpaced : (Gap.Spaced (b.gap left right) ↔ must = false) ↔ b.isSpacedPair left right = !must := by
    rw [Buffer.isSpacedPair, ← Gap.isSpaced_iff]
    cases must <;> cases Gap.isSpaced (b.gap left right) <;> decide
  by_cases hLine : left.stopPos.line = right.startPos.line
  · rw [Buffer.pairFault?, if_pos hLine]
    by_cases hFault : b.isSpacedPair left right = !must
    · rw [pairReports, if_pos ⟨hLine, hSpaced.2 hFault⟩, hFault]
      cases must <;> rfl
    · have hMust : must = b.isSpacedPair left right := by
        revert hFault
        cases must <;> cases b.isSpacedPair left right <;> decide
      rw [pairReports, if_neg fun h => hFault (hSpaced.1 h.2), Gap.fault?_eq_none_iff.2 hMust]
      rfl
  · rw [Buffer.pairFault?, if_neg hLine, pairReports, if_neg fun h => hLine h.1]
    rfl

theorem reports_eq {o : CurlyOptions} {t : Braces} (h : braces? s c = some t) :
    reports s o c = ownReports s.toBuffer o c.kind t := by
  have hMust : closingSpaced o c.kind t.penultimate = (o.forKind c.kind !=
      ((o.arraysException && t.penultimate.text == [']']) ||
        (o.objectsException && t.penultimate.text == ['\x7d']))) := by
    rw [closingSpaced]
    split
    next hOther => rw [hOther, Bool.bne_true]
    next hSame => rw [Bool.eq_false_iff.2 hSame, Bool.bne_false]
  rw [reports, h, ownReports, ← hMust, ← pairReports_eq, ← pairReports_eq]
  rfl

theorem exists_owned {o : CurlyOptions} {cs : List BraceConstruct}
    (hOwns : ∀ c ∈ cs, c.isFilled = true → ∃ t, braces? s c = some t ∧ Owns s c t)
    (hNone : ∀ c ∈ cs, c.isFilled = false → braces? s c = none) :
    ∃ owned : List (BraceConstruct × Braces),
      owned.map Prod.fst = cs.filter BraceConstruct.isFilled ∧ (∀ p ∈ owned, Owns s p.1 p.2) ∧
      cs.flatMap (reports s o) = owned.flatMap fun p => ownReports s.toBuffer o p.1.kind p.2 := by
  induction cs with
  | nil => exact ⟨[], rfl, fun p hp => absurd hp List.not_mem_nil, rfl⟩
  | cons c cs ih =>
    rw [List.forall_mem_cons] at hOwns hNone
    obtain ⟨owned, hFst, hAll, hReports⟩ := ih hOwns.2 hNone.2
    rw [List.filter_cons, List.flatMap_cons, hReports]
    cases hFilled : c.isFilled with
    | false =>
      refine ⟨owned, hFst, hAll, ?_⟩
      rw [reports, hNone.1 hFilled]
      rfl
    | true =>
      obtain ⟨t, hBraces, hOwn⟩ := hOwns.1 hFilled
      refine ⟨(c, t) :: owned, ?_, List.forall_mem_cons.2 ⟨hOwn, hAll⟩, ?_⟩
      · rw [List.map_cons, hFst]
        rfl
      · rw [reports_eq hBraces, List.flatMap_cons]

/-- **The findings of the rule are about own braces.** If the constructs with elements between braces
are shaped as the grammar makes them, outside of comments and atomic nodes, the findings are those of
each of them with its own braces, in document order and the opening side first. -/
theorem visit_eq_owned (path : String) (text : List Char) (root : Node) (options : Value)
    (config : CurlyConfig) (hWell : root.WellFormed text)
    (hOptions : CurlyConfig.read (Rule.givenOptions options) = .ok config)
    (hShaped : ∀ c ∈ root.constructs, c.isFilled = true → root.Exposed c.node ∧ c.Shaped text) :
    ∃ owned : List (BraceConstruct × Braces),
      owned.map Prod.fst = root.constructs.filter BraceConstruct.isFilled ∧
      (∀ p ∈ owned, Owns (Source.ofText text (some root)) p.1 p.2) ∧
      visit ((Analysis.viewOf path text (some root)).withOptions options) =
        .ok ((owned.flatMap fun p =>
          ownReports (Buffer.ofText text) (.ofConfig config) p.1.kind p.2).map fun r =>
            r.finding id path (.text "warn") (Buffer.ofText text)) := by
  obtain ⟨owned, hFst, hOwns, hReports⟩ := @exists_owned (Source.ofText text (some root))
    (.ofConfig config) root.constructs
    (fun c hc hFilled => exists_owns hWell hc hFilled (hShaped c hc hFilled).1 (hShaped c hc hFilled).2)
    fun c hc hFilled => braces?_eq_none hc hFilled
  refine ⟨owned, hFst, hOwns, ?_⟩
  rw [visit_viewOf path text root (readOptions_of_read hOptions), hReports]
  rfl

def importList : Node :=
  ⟨"named_imports", true, 10, 16, [⟨"\x7b", false, 10, 11, []⟩,
    ⟨"import_specifier", true, 12, 13, [⟨"identifier", true, 12, 13, []⟩]⟩,
    ⟨",", false, 13, 14, []⟩, ⟨"\x7d", false, 15, 16, []⟩]⟩

def importTree : Node :=
  ⟨"import_statement", true, 0, 25, [⟨"import", false, 0, 6, []⟩,
    ⟨"import_clause", true, 7, 16,
      [⟨"identifier", true, 7, 8, []⟩, ⟨",", false, 8, 9, []⟩, importList]⟩,
    ⟨"from", false, 17, 21, []⟩, ⟨"string", true, 22, 25, []⟩]⟩

/-- The braces of the list are found from its one name, past a default and over a comma. -/
theorem visit_eq_owned_import : ∃ owned : List (BraceConstruct × Braces), owned.length = 1 ∧
    (∀ p ∈ owned, p.2.opening.start = 10 ∧ p.2.closing.start = 15) ∧
    visit ((Analysis.viewOf "import.js" "import a, \x7b b, \x7d from 'x'".toList
      (some importTree)).withOptions .null) =
        .ok ((owned.flatMap fun p => ownReports (Buffer.ofText "import a, \x7b b, \x7d from 'x'".toList)
          (.ofConfig ⟨none, {}⟩) p.1.kind p.2).map fun r => r.finding id "import.js" (.text "warn")
            (Buffer.ofText "import a, \x7b b, \x7d from 'x'".toList)) := by
  have hConstructs : importTree.constructs =
      [⟨.importDeclaration, importTree, importTree.importedElements⟩] := by
    rw [Node.constructs_eq]
    rfl
  have hBraced : Node.Braced "import a, \x7b b, \x7d from 'x'".toList importList _ _ _ :=
    @Node.braced_of_children importList "import a, \x7b b, \x7d from 'x'".toList
      ⟨"\x7b", false, 10, 11, []⟩ ⟨"\x7d", false, 15, 16, []⟩
      [⟨"import_specifier", true, 12, 13, [⟨"identifier", true, 12, 13, []⟩]⟩,
        ⟨",", false, 13, 14, []⟩] rfl ⟨rfl, rfl, by cbv⟩ ⟨rfl, rfl, by cbv⟩
  obtain ⟨owned, hFst, hOwns, hVisit⟩ := visit_eq_owned "import.js"
    "import a, \x7b b, \x7d from 'x'".toList importTree .null ⟨none, {}⟩ (by decide) rfl (by
      rw [hConstructs]
      intro c hc _
      rw [List.mem_singleton.1 hc]
      refine ⟨.root, _, importList, _, _, _, rfl, rfl, ?_, hBraced, ?_⟩
      · exact Or.inr ⟨_, _, rfl, rfl, rfl, rfl, by cbv⟩
      · exact .trailing ⟨rfl, rfl⟩ ⟨rfl, rfl, by cbv⟩)
  rw [hConstructs] at hFst
  refine ⟨owned, ?_, fun p hp => ?_, hVisit⟩
  · have hLength := congrArg List.length hFst
    rw [List.length_map] at hLength
    exact hLength
  · have hMem := List.mem_map_of_mem (f := Prod.fst) hp
    rw [hFst] at hMem
    obtain ⟨n, first, last, hList, hFirst, hLast, hOpening, hClosing⟩ := (hOwns p hp).list
    rw [List.mem_singleton.1 (List.mem_filter.1 hMem).1] at hList
    cases hList
    cases hFirst
    cases hLast
    rw [hOpening, hClosing]
    exact ⟨rfl, rfl⟩

end CurlySpacing

end TidySpace
