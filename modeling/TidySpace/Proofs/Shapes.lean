import TidySpace.Proofs.Constructs
import TidySpace.Proofs.Slices
import TidySpace.Proofs.Tokens

/-! # The shapes of braced lists

What a grammar makes of a construct with braces: a node with an opening brace first, a closing brace
last, and in import and export lists names with commas between them. Comments may stand anywhere, so
all of this is about the children that are no comments (`Node.parts`).

The rule never looks at these children. It looks for tokens, and those of a node that is not inside a
comment or an atomic node (`Node.Exposed`) stand together among the tokens of the tree
(`Exposed.exists_leaves`), the braces at the ends.
-/

namespace TidySpace

namespace Node

variable {start stop : Nat} {ns ms : List Node} {root n m : Node}

/-! ### Exposed nodes -/

/-- A node that is outside of comments and atomic nodes: only other nodes are above it. -/
inductive Exposed (root : Node) : Node → Prop where
  | root : Exposed root root
  | child {m n : Node} : Exposed root m → m.isComment = false → m.isAtomic = false →
      n ∈ m.children → Exposed root n

/-- The kinds of nodes that are comments or atomic. -/
theorem plain_of_kind (h : n.kind ∉ ["comment", "html_comment", "string", "regex", "jsx_text",
    "template_string"]) : n.isComment = false ∧ n.isAtomic = false := by
  simp only [List.mem_cons, List.not_mem_nil, or_false, not_or] at h
  obtain ⟨hComment, hHtml, hString, hRegex, hText, hTemplate⟩ := h
  rw [isComment, isAtomic, beq_eq_false_iff_ne.2 hComment, beq_eq_false_iff_ne.2 hHtml,
    beq_eq_false_iff_ne.2 hString, beq_eq_false_iff_ne.2 hRegex, beq_eq_false_iff_ne.2 hText,
    beq_eq_false_iff_ne.2 hTemplate]
  exact ⟨rfl, rfl⟩

theorem Laid.cut (h : Laid start stop (ns ++ n :: ms)) :
    Laid start n.start ns ∧ n.start ≤ n.stop ∧ Laid n.stop stop ms := by
  induction ns generalizing start with
  | nil => exact h
  | cons m ns ih =>
    obtain ⟨hNs, hRest⟩ := ih h.2.2
    exact ⟨⟨h.1, h.2.1, hNs⟩, hRest⟩

theorem Laid.leaves (hNested : Nested ns) (h : Laid start stop ns) :
    Laid start stop (leavesAll ns) := by
  rw [← tokensOf_eq]
  exact laid_tokensOf hNested h

theorem leavesAll_singleton (n : Node) : leavesAll [n] = n.leaves := by
  rw [leavesAll, leavesAll, List.append_nil]

theorem lt_of_mem_leavesAll (h : n ∈ leavesAll ns) : n.start < n.stop := by
  rw [← tokensOf_eq] at h
  exact (of_mem_tokensOf h).2

theorem Laid.of_mem_leavesAll (hNested : Nested ns) (h : Laid start stop ns) :
    ∀ m ∈ leavesAll ns, start ≤ m.start ∧ m.start < m.stop ∧ m.stop ≤ stop := by
  intro m hm
  obtain ⟨hStart, -, hStop⟩ := (h.leaves hNested).of_mem hm
  exact ⟨hStart, lt_of_mem_leavesAll hm, hStop⟩

theorem leaves_of_childless (hComment : n.isComment = false) (hNil : n.children = [])
    (hLt : n.start < n.stop) : n.leaves = [n] := by
  have hClosed : n.isOpen = false := by
    rw [isOpen, hNil]
    rfl
  rw [leaves_eq, hComment, hClosed, if_neg Bool.false_ne_true, if_neg Bool.false_ne_true,
    if_neg (Nat.not_le.2 hLt)]

theorem leaves_of_open (hComment : n.isComment = false) (hAtomic : n.isAtomic = false)
    (hSome : n.children ≠ []) : n.leaves = leavesAll n.children := by
  have hOpen : n.isOpen = true := by
    rw [isOpen, hAtomic, List.isEmpty_eq_false_iff.2 hSome]
    rfl
  rw [leaves_eq, if_neg (by rw [hComment]; decide), if_pos hOpen]

theorem Exposed.nested (h : Exposed root n) (hNested : Nested [root]) :
    Laid n.start n.stop n.children ∧ Nested n.children := by
  induction h with
  | root =>
    obtain ⟨hLaid, hBelow, -⟩ := nested_cons.1 hNested
    exact ⟨hLaid, hBelow⟩
  | child _ _ _ hn ih =>
    obtain ⟨xs, ys, hChildren⟩ := List.append_of_mem hn
    rw [hChildren] at ih
    obtain ⟨hLaid, hBelow, -⟩ := nested_cons.1 (nested_append.1 ih.2).2
    exact ⟨hLaid, hBelow⟩

/-- **The tokens of an exposed node stand together**; the others lie before it or behind it. -/
theorem Exposed.exists_leaves (h : Exposed root n) (hNested : Nested [root]) :
    ∃ front back, root.leaves = front ++ n.leaves ++ back ∧ (∀ t ∈ front, t.stop ≤ n.start) ∧
      ∀ t ∈ back, n.stop ≤ t.start := by
  induction h with
  | root => exact ⟨[], [], by simp, by simp, by simp⟩
  | @child m n hExposed hComment hAtomic hn ih =>
    obtain ⟨front, back, hLeaves, hFront, hBack⟩ := ih
    obtain ⟨hLaid, hBelow⟩ := hExposed.nested hNested
    have hBounds := hLaid.of_mem hn
    have hOpen := leaves_of_open hComment hAtomic (List.ne_nil_of_mem hn)
    obtain ⟨xs, ys, hChildren⟩ := List.append_of_mem hn
    rw [hChildren] at hOpen hLaid hBelow
    obtain ⟨hXs, -, hYs⟩ := hLaid.cut
    obtain ⟨hNestedXs, hRest⟩ := nested_append.1 hBelow
    obtain ⟨-, -, hNestedYs⟩ := nested_cons.1 hRest
    refine ⟨front ++ leavesAll xs, leavesAll ys ++ back, ?_, ?_, ?_⟩
    · rw [hLeaves, hOpen, leavesAll_append, leavesAll]
      simp only [List.append_assoc]
    · intro t ht
      rcases List.mem_append.1 ht with ht | ht
      · exact Nat.le_trans (hFront t ht) hBounds.1
      · exact ((hXs.leaves hNestedXs).of_mem ht).2.2
    · intro t ht
      rcases List.mem_append.1 ht with ht | ht
      · exact ((hYs.leaves hNestedYs).of_mem ht).1
      · exact Nat.le_trans hBounds.2.2 (hBack t ht)

/-! ### Parts -/

def parts (n : Node) : List Node := n.children.filter fun c => !c.isComment

theorem namedChildren_eq (n : Node) : n.namedChildren = n.parts.filter Node.named := by
  rw [namedChildren, parts, List.filter_filter]

theorem Laid.filter (h : Laid start stop ns) (p : Node → Bool) :
    Laid start stop (ns.filter p) := by
  induction ns generalizing start with
  | nil => exact h
  | cons n ns ih =>
    obtain ⟨hStart, hForward, hRest⟩ := h
    rw [List.filter_cons]
    split
    next => exact ⟨hStart, hForward, ih hRest⟩
    next => exact (ih hRest).mono (Nat.le_trans hStart hForward)

theorem Nested.filter (h : Nested ns) (p : Node → Bool) : Nested (ns.filter p) := by
  induction ns with
  | nil => exact h
  | cons n ns ih =>
    obtain ⟨hLaid, hBelow, hRest⟩ := nested_cons.1 h
    rw [List.filter_cons]
    split
    next => exact nested_cons.2 ⟨hLaid, hBelow, ih hRest⟩
    next => exact ih hRest

theorem leavesAll_filter (ns : List Node) :
    leavesAll (ns.filter fun c => !c.isComment) = leavesAll ns := by
  induction ns with
  | nil => rfl
  | cons n ns ih =>
    rw [List.filter_cons, leavesAll]
    cases hComment : n.isComment with
    | true => rw [if_neg (by decide), ih, leaves_eq, if_pos hComment]; rfl
    | false => rw [if_pos (by decide), leavesAll, ih]

/-! ### Marks, names and braced lists -/

structure IsMark (text : List Char) (c : Char) (n : Node) : Prop where
  kind : n.kind = String.singleton c
  children : n.children = []
  text : (Buffer.ofText text).slice n.start n.stop = [c]

structure IsName (kind : String) (n : Node) : Prop where
  named : n.named = true
  kind : n.kind = kind

/-- Names of a kind with commas between them, and perhaps one behind the last. -/
inductive Names (text : List Char) (kind : String) : List Node → Prop where
  | last {n : Node} : IsName kind n → Names text kind [n]
  | trailing {n comma : Node} : IsName kind n → IsMark text ',' comma → Names text kind [n, comma]
  | more {n comma : Node} {rest : List Node} : IsName kind n → IsMark text ',' comma →
      Names text kind rest → Names text kind (n :: comma :: rest)

/-- A node between braces: among its parts an opening brace is first and a closing brace is last. -/
structure Braced (text : List Char) (n first : Node) (inner : List Node) (last : Node) : Prop where
  parts : n.parts = first :: (inner ++ [last])
  opening : IsMark text '\x7b' first
  closing : IsMark text '\x7d' last

section Marks

variable {text : List Char} {c : Char} {kind : String} {inner : List Node}

theorem IsMark.kind_ne (h : IsMark text c n) (hKind : kind.toList.length ≠ 1) : n.kind ≠ kind := by
  intro hEq
  rw [← hEq, h.kind, String.toList_singleton] at hKind
  exact hKind rfl

theorem IsMark.lt (h : IsMark text c n) : n.start < n.stop := by
  refine Nat.lt_of_not_le fun hLe => ?_
  have hText := h.text
  rw [Buffer.slice, slice_natCast, Nat.sub_eq_zero_of_le (by omega), List.take_zero] at hText
  cases (Utf8.decodeReplacing_encode []).symm.trans hText

theorem IsMark.isComment (h : IsMark text c n) : n.isComment = false := by
  rw [Node.isComment, beq_eq_false_iff_ne.2 (h.kind_ne (by decide)),
    beq_eq_false_iff_ne.2 (h.kind_ne (by decide))]
  rfl

theorem IsMark.leaves (h : IsMark text c n) : n.leaves = [n] := by
  have hOpen : n.isOpen = false := by rw [isOpen, h.children]; rfl
  rw [leaves_eq, h.isComment, hOpen, if_neg (by decide), if_neg (by decide),
    if_neg (Nat.not_le.2 h.lt)]

theorem braced_of_children {first last : Node} {inner : List Node}
    (hChildren : n.children = first :: (inner ++ [last])) (hFirst : IsMark text '\x7b' first)
    (hLast : IsMark text '\x7d' last) :
    Braced text n first (inner.filter fun c => !c.isComment) last := by
  refine ⟨?_, hFirst, hLast⟩
  rw [parts, hChildren, List.filter_cons, List.filter_append, List.filter_cons, hFirst.isComment,
    hLast.isComment]
  rfl

def names (kind : String) (ns : List Node) : List Node :=
  (ns.filter Node.named).filter (·.kind == kind)

theorem names_append (ns ms : List Node) : names kind (ns ++ ms) = names kind ns ++ names kind ms := by
  rw [names, List.filter_append, List.filter_append]
  rfl

theorem names_cons (hName : IsName kind n) (ns : List Node) : names kind (n :: ns) = n :: names kind ns := by
  rw [names, List.filter_cons, if_pos hName.named, List.filter_cons,
    if_pos (beq_iff_eq.2 hName.kind), names]

theorem names_of_mark (hMark : IsMark text c n) (hKind : kind.toList.length ≠ 1) (ns : List Node) :
    names kind (n :: ns) = names kind ns := by
  have hOther : (n.kind == kind) = false := beq_eq_false_iff_ne.2 (hMark.kind_ne hKind)
  rw [names, List.filter_cons]
  split
  next => rw [List.filter_cons, hOther, if_neg (by decide), names]
  next => rw [names]

theorem Names.exists_first (h : Names text kind inner) :
    ∃ n rest, inner = n :: rest ∧ (names kind inner).head? = some n := by
  cases h with
  | last hName => exact ⟨_, _, rfl, by rw [names_cons hName]; rfl⟩
  | trailing hName _ => exact ⟨_, _, rfl, by rw [names_cons hName]; rfl⟩
  | more hName _ _ => exact ⟨_, _, rfl, by rw [names_cons hName]; rfl⟩

/-- **Behind the last name of a list there is nothing, or one comma.** -/
theorem Names.exists_last (h : Names text kind inner) (hKind : kind.toList.length ≠ 1) :
    ∃ front n back, inner = front ++ n :: back ∧ (names kind inner).getLast? = some n ∧
      (back = [] ∨ ∃ comma, back = [comma] ∧ IsMark text ',' comma) := by
  induction h with
  | @last n hName => exact ⟨[], n, [], rfl, by rw [names_cons hName]; rfl, Or.inl rfl⟩
  | @trailing n comma hName hMark =>
    exact ⟨[], n, [comma], rfl, by rw [names_cons hName, names_of_mark hMark hKind]; rfl,
      Or.inr ⟨comma, rfl, hMark⟩⟩
  | @more n comma rest hName hMark _ ih =>
    obtain ⟨front, m, back, rfl, hLast, hBack⟩ := ih
    refine ⟨n :: comma :: front, m, back, rfl, ?_, hBack⟩
    rw [names_cons hName, names_of_mark hMark hKind, List.getLast?_cons, hLast]
    rfl

end Marks

/-- **The tokens of an exposed braced node**: its braces, and what is between them. -/
theorem Exposed.exists_braces {text : List Char} {first last : Node} {inner : List Node}
    (h : Exposed root n) (hNested : Nested [root]) (hComment : n.isComment = false)
    (hAtomic : n.isAtomic = false) (hBraced : Braced text n first inner last) :
    ∃ front back, root.leaves = front ++ first :: (leavesAll inner ++ last :: back) ∧
      (∀ t ∈ front, t.stop ≤ n.start) ∧ (∀ t ∈ back, n.stop ≤ t.start) := by
  obtain ⟨front, back, hLeaves, hFront, hBack⟩ := h.exists_leaves hNested
  have hSome : n.children ≠ [] := by
    intro hNil
    have hParts := hBraced.parts
    rw [Node.parts, hNil] at hParts
    cases hParts
  have hOpen := leaves_of_open hComment hAtomic hSome
  rw [← leavesAll_filter, ← Node.parts, hBraced.parts, leavesAll, leavesAll_append, leavesAll,
    hBraced.opening.leaves, hBraced.closing.leaves] at hOpen
  refine ⟨front, back, ?_, hFront, hBack⟩
  rw [hLeaves, hOpen, leavesAll, List.append_nil, List.append_assoc, List.append_assoc,
    List.append_assoc]
  rfl

end Node

/-! ### Shapes of constructs -/

namespace BraceConstruct

/-- The node of a construct whose parts have the braces at their ends. -/
def list? (c : BraceConstruct) : Option Node :=
  match c.kind with
  | .objectPattern => some c.node
  | .objectExpression => some c.node
  | .importDeclaration => (c.node.child? "import_clause").bind fun clause =>
    clause.parts.find? (·.kind == "named_imports")
  | .exportDeclaration => c.node.child? "export_clause"

/-- Whether a construct has elements between braces; the default and the namespace of an import have
none around them. -/
def isFilled (c : BraceConstruct) : Bool :=
  c.elements.any fun e => e.kind == .property || e.kind == .named

/-- A construct as the grammar makes it. A default may stand before the list of an import. -/
def Shaped (text : List Char) (c : BraceConstruct) : Prop :=
  match c.kind with
  | .objectPattern => ∃ first inner last, Node.Braced text c.node first inner last
  | .objectExpression => ∃ first inner last, Node.Braced text c.node first inner last
  | .importDeclaration => ∃ clause n first inner last,
      c.node.child? "import_clause" = some clause ∧ n.kind = "named_imports" ∧
        (clause.parts = [n] ∨ ∃ name comma, clause.parts = [name, comma, n] ∧
          name.kind = "identifier" ∧ Node.IsMark text ',' comma) ∧
        Node.Braced text n first inner last ∧ Node.Names text "import_specifier" inner
  | .exportDeclaration => ∃ n first inner last, c.node.child? "export_clause" = some n ∧
      Node.Braced text n first inner last ∧ Node.Names text "export_specifier" inner

end BraceConstruct

end TidySpace
