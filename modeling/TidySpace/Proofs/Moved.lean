import TidySpace.Proofs.Constructs
import TidySpace.Proofs.Splicing
import TidySpace.Proofs.Tokens
import TidySpace.Rule.CurlySpacing

/-! # The tree of an edited text

When a text is edited outside of its tokens, its tree stays the same but for the offsets. `Node.move`
moves them: the start of a node like the start of a range, and its stop like the stop of one. Kinds
and children are as before, so the moved tree has the tokens and the constructs of the tree, moved
(`tokensOf_move`, `constructsOf_move`).

`Source.Moved` says that the tokens of a source are those of another one, each kept by the edits and
moved. A search at a moved offset then ends at the same index, because each comparison on the way
comes out as it did (`after?_moveStop`, `before?_moveStart` and the other searches), and the braces
of a construct are found where they were (`braces?_move`).
-/

namespace TidySpace

open Edit (moveStart moveStop Clear Kept Ordered)

namespace Node

/-! ### Moved trees -/

mutual

/-- The tree with all offsets moved by edits. -/
def move (es : List Edit) (n : Node) : Node :=
  match n with
  | ⟨kind, named, start, stop, children⟩ =>
    ⟨kind, named, (moveStart es start).toNat, (moveStop es stop).toNat, moveAll es children⟩

def moveAll (es : List Edit) : List Node → List Node
  | [] => []
  | n :: ns => move es n :: moveAll es ns

end

variable {es : List Edit} {n : Node} {ns : List Node}

theorem moveAll_eq (es : List Edit) (ns : List Node) : moveAll es ns = ns.map (move es) := by
  induction ns with
  | nil => rw [moveAll]; rfl
  | cons n ns ih => rw [moveAll, List.map_cons, ih]

theorem move_eq (es : List Edit) (n : Node) :
    n.move es = ⟨n.kind, n.named, (moveStart es n.start).toNat, (moveStop es n.stop).toNat,
      n.children.map (move es)⟩ := by
  obtain ⟨kind, named, start, stop, children⟩ := n
  rw [move, moveAll_eq]

@[simp] theorem kind_move (es : List Edit) (n : Node) : (n.move es).kind = n.kind := by rw [move_eq]

@[simp] theorem named_move (es : List Edit) (n : Node) : (n.move es).named = n.named := by
  rw [move_eq]

theorem start_move (es : List Edit) (n : Node) : (n.move es).start = (moveStart es n.start).toNat := by
  rw [move_eq]

theorem stop_move (es : List Edit) (n : Node) : (n.move es).stop = (moveStop es n.stop).toNat := by
  rw [move_eq]

@[simp] theorem children_move (es : List Edit) (n : Node) :
    (n.move es).children = n.children.map (move es) := by
  rw [move_eq]

@[simp] theorem isComment_move (es : List Edit) (n : Node) : (n.move es).isComment = n.isComment := by
  rw [isComment, kind_move, isComment]

@[simp] theorem isAtomic_move (es : List Edit) (n : Node) : (n.move es).isAtomic = n.isAtomic := by
  rw [isAtomic, kind_move, children_move, List.any_map, isAtomic]
  simp only [Function.comp_def, kind_move]

@[simp] theorem isOpen_move (es : List Edit) (n : Node) : (n.move es).isOpen = n.isOpen := by
  rw [isOpen, isAtomic_move, children_move, List.isEmpty_map, isOpen]

/-- **A moved tree has the tokens of the tree, moved.** What was empty stays so, and tokens do not
become empty. -/
theorem tokensOf_move
    (hEmpty : ∀ n ∈ preorderAll ns, n.stop ≤ n.start → (n.move es).stop ≤ (n.move es).start)
    (hTokens : ∀ n ∈ tokensOf ns, (n.move es).start < (n.move es).stop) :
    tokensOf (ns.map (move es)) = (tokensOf ns).map (move es) := by
  fun_induction tokensOf ns with
  | case1 => rw [List.map_nil, tokensOf]
  | case2 n rest hComment ih =>
    rw [preorderAll, List.forall_mem_append] at hEmpty
    rw [List.map_cons, tokensOf, if_pos (by rw [isComment_move]; exact hComment)]
    exact ih hEmpty.2 hTokens
  | case3 n rest hComment hOpen ih =>
    rw [preorderAll_cons, List.forall_mem_cons] at hEmpty
    rw [List.map_cons, tokensOf, if_neg (by rw [isComment_move]; exact hComment),
      if_pos (by rw [isOpen_move]; exact hOpen), children_move, ← List.map_append]
    exact ih hEmpty.2 hTokens
  | case4 n rest hComment hOpen hNone ih =>
    rw [preorderAll_cons, List.forall_mem_cons, preorderAll_append, List.forall_mem_append] at hEmpty
    rw [List.map_cons, tokensOf, if_neg (by rw [isComment_move]; exact hComment),
      if_neg (by rw [isOpen_move]; exact hOpen), if_pos (hEmpty.1 hNone)]
    exact ih hEmpty.2.2 hTokens
  | case5 n rest hComment hOpen hSome ih =>
    rw [preorderAll_cons, List.forall_mem_cons, preorderAll_append, List.forall_mem_append] at hEmpty
    rw [List.forall_mem_cons] at hTokens
    rw [List.map_cons, List.map_cons, tokensOf, if_neg (by rw [isComment_move]; exact hComment),
      if_neg (by rw [isOpen_move]; exact hOpen), if_neg (Nat.not_le.2 hTokens.1),
      ih hEmpty.2.2 hTokens.2]

/-! ### Moved constructs -/

end Node

def Element.move (es : List Edit) (e : Element) : Element := ⟨e.kind, e.node.move es⟩

def BraceConstruct.move (es : List Edit) (c : BraceConstruct) : BraceConstruct :=
  ⟨c.kind, c.node.move es, c.elements.map (Element.move es)⟩

namespace Node

variable {es : List Edit} {n : Node} {ns : List Node}

theorem child?_move (es : List Edit) (n : Node) (kind : String) :
    (n.move es).child? kind = (n.child? kind).map (move es) := by
  rw [child?, children_move, List.find?_map, child?]
  simp only [Function.comp_def, kind_move]

theorem namedChildren_move (es : List Edit) (n : Node) :
    (n.move es).namedChildren = n.namedChildren.map (move es) := by
  rw [namedChildren, children_move, List.filter_map, namedChildren]
  simp only [Function.comp_def, named_move, isComment_move]

theorem specifiers_move (es : List Edit) (n : Node) (kind : String) :
    (n.move es).specifiers kind = (n.specifiers kind).map (Element.move es) := by
  rw [specifiers, namedChildren_move, List.filter_map, specifiers, List.map_map, List.map_map]
  simp only [Function.comp_def, kind_move]
  rfl

theorem importElements_move (es : List Edit) (n : Node) :
    (n.move es).importElements = n.importElements.map (Element.move es) := by
  unfold importElements
  rw [kind_move, specifiers_move]
  split
  next => rfl
  split
  next => rfl
  split
  next => rfl
  next => rfl

theorem importedElements_move (es : List Edit) (n : Node) :
    (n.move es).importedElements = n.importedElements.map (Element.move es) := by
  rw [importedElements, child?_move, importedElements]
  cases n.child? "import_clause" with
  | none => rfl
  | some clause =>
    show (clause.move es).namedChildren.flatMap importElements = _
    rw [namedChildren_move, List.flatMap_map, List.map_flatMap]
    simp only [importElements_move]

theorem exportedElements_move (es : List Edit) (n : Node) :
    (n.move es).exportedElements = n.exportedElements.map (Element.move es) := by
  rw [exportedElements, child?_move, exportedElements]
  cases n.child? "export_clause" with
  | none => rfl
  | some clause => exact specifiers_move es clause _

theorem construct?_move (es : List Edit) (n : Node) :
    (n.move es).construct? = n.construct?.map (BraceConstruct.move es) := by
  unfold construct?
  rw [kind_move, namedChildren_move, importedElements_move, exportedElements_move, List.map_map]
  split
  next => rw [Option.map_some, BraceConstruct.move, List.map_map]; rfl
  split
  next => rw [Option.map_some, BraceConstruct.move, List.map_map]; rfl
  split
  next => rfl
  split
  next => rfl
  next => rfl

/-- **A moved tree has the constructs of the tree, moved.** -/
theorem constructsOf_move (es : List Edit) (ns : List Node) :
    constructsOf (ns.map (move es)) = (constructsOf ns).map (BraceConstruct.move es) := by
  fun_induction constructsOf ns with
  | case1 => rw [List.map_nil, constructsOf]; rfl
  | case2 n rest ih =>
    rw [List.map_cons, constructsOf, children_move, ← List.map_append, ih, construct?_move,
      List.map_append]
    cases n.construct? with
    | none => rfl
    | some c => rfl

theorem constructs_move (es : List Edit) (root : Node) :
    (root.move es).constructs = root.constructs.map (BraceConstruct.move es) :=
  constructsOf_move es [root]

end Node

/-! ### Searches that come out as they did -/

theorem partitionPoint_congr {p q : Nat → Bool} {low high : Nat}
    (h : ∀ i, i < high → p i = q i) : partitionPoint p low high = partitionPoint q low high := by
  fun_induction partitionPoint p low high with
  | case1 low high hlt middle hp ih =>
    rw [ih h, partitionPoint.eq_def q low high, if_pos hlt]
    exact (if_pos ((h middle (by omega)).symm.trans hp)).symm
  | case2 low high hlt middle hp ih =>
    rw [ih fun i hi => h i (by omega), partitionPoint.eq_def q low high, if_pos hlt]
    exact (if_neg (by rw [← h middle (by omega)]; exact hp)).symm
  | case3 low high hlt => rw [partitionPoint, if_neg hlt]

theorem filter_map_congr {α β : Type} {found : Option α} {f : α → β} {p : β → Bool} {q : α → Bool}
    (h : ∀ a, found = some a → p (f a) = q a) :
    (found.map f).filter p = (found.filter q).map f := by
  cases found with
  | none => rfl
  | some a =>
    rw [Option.map_some, Option.filter_some, Option.filter_some, h a rfl]
    split
    next => rfl
    next => rfl

section Search

variable {α : Type} {ts : List α} {f g : α → Int} {x y : Int}

theorem lowerBound_map_congr (h : ∀ t ∈ ts, f t < x ↔ g t < y) :
    lowerBound (ts.map f) x = lowerBound (ts.map g) y := by
  rw [lowerBound, lowerBound, List.length_map, List.length_map]
  refine partitionPoint_congr fun i hi => ?_
  rw [List.getD_eq_getElem?_getD, List.getD_eq_getElem?_getD, List.getElem?_map, List.getElem?_map,
    List.getElem?_eq_getElem hi]
  exact decide_eq_decide.2 (h _ (List.getElem_mem hi))

theorem upperBound_map_congr (h : ∀ t ∈ ts, f t ≤ x ↔ g t ≤ y) :
    upperBound (ts.map f) x = upperBound (ts.map g) y := by
  rw [upperBound, upperBound, List.length_map, List.length_map]
  refine partitionPoint_congr fun i hi => ?_
  rw [List.getD_eq_getElem?_getD, List.getD_eq_getElem?_getD, List.getElem?_map, List.getElem?_map,
    List.getElem?_eq_getElem hi]
  exact decide_eq_decide.2 (h _ (List.getElem_mem hi))

end Search

/-- What a buffer holds at the moved offsets of a token. -/
def Buffer.movedToken (b : Buffer) (es : List Edit) (t : Token) : Token :=
  b.token t.kind (moveStart es t.start) (moveStop es t.stop)

namespace Source

/-- A source with the tokens of another one, each kept by the edits and moved. -/
structure Moved (es : List Edit) (s s' : Source) : Prop where
  ordered : Ordered es
  kept : ∀ t ∈ s.tokens, Kept es t.start t.stop
  tokens : s'.tokens = s.tokens.map (s'.toBuffer.movedToken es)
  text : ∀ t ∈ s.tokens, (s'.toBuffer.movedToken es t).text = t.text

namespace Moved

variable {es : List Edit} {s s' : Source} {x y : Int} (h : Moved es s s')
include h

theorem starts_eq : s'.starts = s.tokens.map fun t => moveStart es t.start := by
  rw [starts, h.tokens, List.map_map]
  rfl

theorem stops_eq : s'.stops = s.tokens.map fun t => moveStop es t.stop := by
  rw [stops, h.tokens, List.map_map]
  rfl

theorem getElem?_tokens (i : Nat) :
    s'.tokens[i]? = s.tokens[i]?.map (s'.toBuffer.movedToken es) := by
  rw [h.tokens, List.getElem?_map]

theorem before?_of_upperBound (hUpper : upperBound s'.stops y = upperBound s.stops x) :
    s'.before? y = (s.before? x).map (s'.toBuffer.movedToken es) := by
  rw [before?, hUpper, before?]
  split
  next => rfl
  next => exact h.getElem?_tokens _

variable (hClear : Clear es x)
include hClear

theorem lowerBound_moveStart : lowerBound s'.starts (moveStart es x) = lowerBound s.starts x := by
  rw [h.starts_eq]
  exact lowerBound_map_congr fun t ht => (h.kept t ht).start_lt_moveStart_iff h.ordered hClear

theorem lowerBound_moveStop : lowerBound s'.starts (moveStop es x) = lowerBound s.starts x := by
  rw [h.starts_eq]
  exact lowerBound_map_congr fun t ht => (h.kept t ht).start_lt_moveStop_iff h.ordered hClear

theorem after?_moveStop :
    s'.after? (moveStop es x) = (s.after? x).map (s'.toBuffer.movedToken es) := by
  rw [after?, h.lowerBound_moveStop hClear, h.getElem?_tokens, after?]

theorem before?_moveStart :
    s'.before? (moveStart es x) = (s.before? x).map (s'.toBuffer.movedToken es) := by
  refine h.before?_of_upperBound ?_
  rw [h.stops_eq]
  exact upperBound_map_congr fun t ht => (h.kept t ht).stop_le_moveStart_iff h.ordered hClear

theorem before?_moveStop :
    s'.before? (moveStop es x) = (s.before? x).map (s'.toBuffer.movedToken es) := by
  refine h.before?_of_upperBound ?_
  rw [h.stops_eq]
  exact upperBound_map_congr fun t ht => (h.kept t ht).stop_le_moveStop_iff h.ordered hClear

variable (hClear' : Clear es y)
include hClear'

theorem firstIn?_move : s'.firstIn? (moveStart es x) (moveStop es y) =
    (s.firstIn? x y).map (s'.toBuffer.movedToken es) := by
  rw [firstIn?, h.lowerBound_moveStart hClear, h.getElem?_tokens, firstIn?]
  refine filter_map_congr fun t hGet => decide_eq_decide.2 ?_
  exact (h.kept t (List.mem_of_getElem? hGet)).stop_le_moveStop_iff h.ordered hClear'

theorem lastIn?_move : s'.lastIn? (moveStart es x) (moveStop es y) =
    (s.lastIn? x y).map (s'.toBuffer.movedToken es) := by
  rw [lastIn?, h.before?_moveStop hClear', lastIn?]
  refine filter_map_congr fun t hGet => decide_eq_decide.2 ?_
  have hIff := (h.kept t (mem_of_before? hGet)).start_lt_moveStart_iff h.ordered hClear
  show moveStart es x ≤ moveStart es t.start ↔ _
  omega

end Moved

end Source

/-! ### Moved braces -/

/-- A node whose offsets no edit spans and which stays behind the start of the buffer. -/
structure Node.Tracked (es : List Edit) (n : Node) : Prop where
  clear_start : Clear es n.start
  clear_stop : Clear es n.stop
  start_nonneg : 0 ≤ moveStart es n.start
  stop_nonneg : 0 ≤ moveStop es n.stop

theorem Node.Tracked.start_eq {es : List Edit} {n : Node} (h : n.Tracked es) :
    ((n.move es).start : Int) = moveStart es n.start := by
  have := h.start_nonneg
  rw [start_move]
  omega

theorem Node.Tracked.stop_eq {es : List Edit} {n : Node} (h : n.Tracked es) :
    ((n.move es).stop : Int) = moveStop es n.stop := by
  have := h.stop_nonneg
  rw [stop_move]
  omega

namespace CurlySpacing

/-- What a buffer holds at the moved offsets of braces and their neighbours. -/
def Braces.moved (b : Buffer) (es : List Edit) (t : Braces) : Braces :=
  ⟨b.movedToken es t.opening, b.movedToken es t.second, b.movedToken es t.penultimate,
    b.movedToken es t.closing⟩

variable {es : List Edit} {s s' : Source} {x y : Int} {c : BraceConstruct}

theorem bracesOf?_move (h : s.Moved es s') {first last : Option Token}
    (hFirst : ∀ t, first = some t → t ∈ s.tokens) (hLast : ∀ t, last = some t → t ∈ s.tokens) :
    bracesOf? s' (first.map (s'.toBuffer.movedToken es)) (last.map (s'.toBuffer.movedToken es)) =
      (bracesOf? s first last).map (Braces.moved s'.toBuffer es) := by
  cases first with
  | none => rfl
  | some opening =>
    cases last with
    | none => rfl
    | some closing =>
      have hOpening := hFirst opening rfl
      have hClosing := hLast closing rfl
      have hSecond : s'.after? (s'.toBuffer.movedToken es opening).stop = _ :=
        h.after?_moveStop (h.kept opening hOpening).clear_stop
      have hPenultimate : s'.before? (s'.toBuffer.movedToken es closing).start = _ :=
        h.before?_moveStart (h.kept closing hClosing).clear_start
      rw [Option.map_some, Option.map_some, bracesOf?, bracesOf?, h.text opening hOpening,
        h.text closing hClosing, hSecond, hPenultimate]
      split
      next =>
        cases s.after? opening.stop with
        | none => rfl
        | some second =>
          cases s.before? closing.start with
          | none => rfl
          | some penultimate => rfl
      next => rfl

theorem afterList?_move (h : s.Moved es s') (hClear : Clear es x) :
    afterList? s' (moveStop es x) = (afterList? s x).map (s'.toBuffer.movedToken es) := by
  rw [afterList?, h.after?_moveStop hClear, afterList?]
  cases hAfter : s.after? x with
  | none => rfl
  | some t =>
    have ht := Source.mem_of_after? hAfter
    show (if (s'.toBuffer.movedToken es t).text = [','] then s'.after? (moveStop es t.stop)
      else some (s'.toBuffer.movedToken es t)) = _
    rw [h.text t ht, h.after?_moveStop (h.kept t ht).clear_stop]
    show _ = (if t.text = [','] then s.after? t.stop else some t).map _
    split
    next => rfl
    next => rfl

theorem bracesAround?_move (h : s.Moved es s') {first last : Node} (hFirst : first.Tracked es)
    (hLast : last.Tracked es) :
    bracesAround? s' (first.move es).start (last.move es).stop =
      (bracesAround? s first.start last.stop).map (Braces.moved s'.toBuffer es) := by
  rw [bracesAround?, hFirst.start_eq, hLast.stop_eq, h.before?_moveStart hFirst.clear_start,
    afterList?_move h hLast.clear_stop]
  exact bracesOf?_move h (fun _ => Source.mem_of_before?) fun _ => mem_of_afterList?

theorem bracesInside?_move (h : s.Moved es s') {n : Node} (hn : n.Tracked es) :
    bracesOf? s' (s'.firstIn? (n.move es).start (n.move es).stop)
        (s'.lastIn? (n.move es).start (n.move es).stop) =
      (bracesOf? s (s.firstIn? n.start n.stop) (s.lastIn? n.start n.stop)).map
        (Braces.moved s'.toBuffer es) := by
  rw [hn.start_eq, hn.stop_eq, h.firstIn?_move hn.clear_start hn.clear_stop,
    h.lastIn?_move hn.clear_start hn.clear_stop]
  exact bracesOf?_move h (fun _ => Source.mem_of_firstIn?) fun _ => Source.mem_of_lastIn?

theorem firstNamed?_move (es : List Edit) (c : BraceConstruct) :
    firstNamed? (c.move es) = (firstNamed? c).map (Node.move es) := by
  rw [firstNamed?, BraceConstruct.move, List.find?_map, firstNamed?, Option.map_map, Option.map_map]
  rfl

theorem mem_of_firstNamed? {n : Node} (h : firstNamed? c = some n) :
    ∃ e ∈ c.elements, e.node = n := by
  obtain ⟨e, hFind, rfl⟩ := Option.map_eq_some_iff.1 h
  exact ⟨e, List.mem_of_find?_eq_some hFind, rfl⟩

/-- **Moved constructs have the braces they had, moved.** -/
theorem braces?_move (h : s.Moved es s') (hNode : c.node.Tracked es)
    (hElements : ∀ e ∈ c.elements, e.node.Tracked es) :
    braces? s' (c.move es) = (braces? s c).map (Braces.moved s'.toBuffer es) := by
  have hInside := bracesInside?_move h hNode
  have hNamed := firstNamed?_move es c
  cases hHead : c.elements.head? with
  | none =>
    have hNil := List.head?_eq_none_iff.1 hHead
    have hNil' : (c.move es).elements = [] := by
      rw [BraceConstruct.move, hNil]
      rfl
    rw [braces?_nil hNil, braces?_nil hNil']
    rfl
  | some first =>
    have hSome : c.elements ≠ [] := fun hNil => by rw [hNil] at hHead; cases hHead
    obtain ⟨last, hLast⟩ : ∃ last, c.elements.getLast? = some last :=
      ⟨_, List.getLast?_eq_some_getLast hSome⟩
    have hFirst := hElements first (List.mem_of_head? hHead)
    have hLastTracked := hElements last (List.mem_of_getLast? hLast)
    have hHead' : (c.move es).elements.head? = some (first.move es) := by
      rw [BraceConstruct.move, List.head?_map, hHead]
      rfl
    have hLast' : (c.move es).elements.getLast? = some (last.move es) := by
      rw [BraceConstruct.move, List.getLast?_map, hLast]
      rfl
    unfold braces?
    rw [hHead, hLast, hHead', hLast', hNamed]
    rw [show (c.move es).kind = c.kind from rfl]
    cases c.kind with
    | objectPattern => exact hInside
    | objectExpression => exact hInside
    | exportDeclaration => exact bracesAround?_move h hFirst hLastTracked
    | importDeclaration =>
      show (if last.kind = .named then _ else _) = Option.map _ (if last.kind = .named then _ else _)
      split
      next =>
        cases hFind : firstNamed? c with
        | none => rfl
        | some n =>
          obtain ⟨e, he, rfl⟩ := mem_of_firstNamed? hFind
          exact bracesAround?_move h (hElements e he) hLastTracked
      next => rfl

theorem closingSpaced_moved (h : s.Moved es s') (o : CurlyOptions) (kind : ConstructKind) {t : Token}
    (ht : t ∈ s.tokens) :
    closingSpaced o kind (s'.toBuffer.movedToken es t) = closingSpaced o kind t := by
  rw [closingSpaced, h.text t ht, closingSpaced]

end CurlySpacing

end TidySpace
