import Mathlib.Data.List.Nodup
import TidySpace.Proofs.Constructs

/-! # Constructs by their addresses

The address of a node tells which child to go to at each step down from the root. In the order of
addresses, a node comes before all that is below it, and what is below it before its next sibling
(`Node.inOrder_preorder`). `InOrder` describes a list by what stands at which address, and so the
constructs of a tree are described without the way in which they are found: one for each node of four
kinds, and for each its elements, by their addresses below that node (`Node.ElementAt`).

The main statement is `Node.constructs_of_tree`, which also says of the loop that finds the constructs
with a stack that it ends (`Node.Unwinds`).
-/

namespace TidySpace

/-- The way to a node from one above it: at each step the index of a child. -/
abbrev Address := List Nat

/-- A list holds all that stands at some address, in the order of the addresses. At each address
stands at most one thing. -/
def InOrder {α : Type} (stands : Address → α → Prop) (xs : List α) : Prop :=
  ∃ sites : List (Address × α), sites.map Prod.snd = xs ∧ sites.Pairwise (fun s s' => s.1 < s'.1) ∧
    ∀ a x, (a, x) ∈ sites ↔ stands a x

namespace InOrder

variable {α β : Type} {stands stands' : Address → α → Prop} {xs : List α}

theorem congr (h : InOrder stands xs) (hSame : ∀ a x, stands a x ↔ stands' a x) :
    InOrder stands' xs := by
  obtain ⟨sites, hMap, hOrder, hMem⟩ := h
  exact ⟨sites, hMap, hOrder, fun a x => (hMem a x).trans (hSame a x)⟩

theorem exists_of_mem (h : InOrder stands xs) {x : α} (hx : x ∈ xs) : ∃ a, stands a x := by
  obtain ⟨sites, rfl, -, hMem⟩ := h
  obtain ⟨⟨a, x⟩, hSite, rfl⟩ := List.mem_map.1 hx
  exact ⟨a, (hMem a x).1 hSite⟩

theorem filterMap (h : InOrder stands xs) (f : α → Option β) :
    InOrder (fun a y => ∃ x, stands a x ∧ f x = some y) (xs.filterMap f) := by
  obtain ⟨sites, rfl, hOrder, hMem⟩ := h
  refine ⟨sites.filterMap fun s => (f s.2).map fun y => (s.1, y), ?_, ?_, ?_⟩
  · rw [List.map_filterMap, List.filterMap_map]
    refine List.filterMap_congr fun s _ => ?_
    cases hf : f s.2 <;> simp [hf]
  · refine hOrder.filterMap _ fun s s' hLt y hy y' hy' => ?_
    obtain ⟨_, -, rfl⟩ := Option.map_eq_some_iff.1 hy
    obtain ⟨_, -, rfl⟩ := Option.map_eq_some_iff.1 hy'
    exact hLt
  · intro a y
    rw [List.mem_filterMap]
    constructor
    · rintro ⟨⟨a, x⟩, hSite, hy⟩
      obtain ⟨y, hf, hEq⟩ := Option.map_eq_some_iff.1 hy
      obtain ⟨rfl, rfl⟩ := Prod.mk.inj hEq
      exact ⟨x, (hMem a x).1 hSite, hf⟩
    · rintro ⟨x, hStands, hf⟩
      exact ⟨(a, x), (hMem a x).2 hStands, Option.map_eq_some_iff.2 ⟨y, hf, rfl⟩⟩

theorem map (h : InOrder stands xs) (f : α → β) :
    InOrder (fun a y => ∃ x, stands a x ∧ f x = y) (xs.map f) := by
  have hMap := h.filterMap fun x => some (f x)
  rw [List.filterMap_eq_map'] at hMap
  exact hMap.congr fun a y => by simp only [Option.some.injEq]

theorem filter (h : InOrder stands xs) (p : α → Bool) :
    InOrder (fun a x => stands a x ∧ p x = true) (xs.filter p) := by
  have hFilter := h.filterMap (Option.guard p)
  rw [List.filterMap_eq_filter] at hFilter
  refine hFilter.congr fun a x => ?_
  simp only [Option.guard_eq_some_iff]
  exact ⟨fun ⟨_, hStands, rfl, hp⟩ => ⟨hStands, hp⟩, fun ⟨hStands, hp⟩ => ⟨x, hStands, rfl, hp⟩⟩

/-- **Lists one behind the other**: what stands below things that are one step away, each after its
step. -/
theorem flatMap {stands : Nat → α → Prop} {below : α → Address → β → Prop} {f : α → List β}
    (h : InOrder (fun a x => ∃ i, a = [i] ∧ stands i x) xs)
    (hBelow : ∀ x ∈ xs, InOrder (below x) (f x)) :
    InOrder (fun a y => ∃ i x rest, a = i :: rest ∧ stands i x ∧ below x rest y) (xs.flatMap f) := by
  obtain ⟨sites, rfl, hOrder, hMem⟩ := h
  have hEach : ∀ s : Address × α, ∃ inner : List (Address × β), s ∈ sites →
      inner.map Prod.snd = f s.2 ∧ inner.Pairwise (fun t t' => t.1 < t'.1) ∧
        ∀ a y, (a, y) ∈ inner ↔ below s.2 a y := by
    intro s
    by_cases hs : s ∈ sites
    · obtain ⟨inner, hInner⟩ := hBelow s.2 (List.mem_map_of_mem hs)
      exact ⟨inner, fun _ => hInner⟩
    · exact ⟨[], fun hs' => absurd hs' hs⟩
  choose inner hInner using hEach
  refine ⟨sites.flatMap fun s => (inner s).map fun t => (s.1 ++ t.1, t.2), ?_, ?_, ?_⟩
  · rw [List.map_flatMap, List.flatMap_map]
    refine List.flatMap_congr fun s hs => ?_
    rw [List.map_map, ← (hInner s hs).1]
    rfl
  · refine List.pairwise_flatMap.2 ⟨fun s hs => ?_, hOrder.imp_of_mem ?_⟩
    · refine List.pairwise_map.2 ((hInner s hs).2.1.imp fun {t t'} hLt => ?_)
      exact List.append_left_lt hLt
    · intro s s' hs hs' hLt t ht t' ht'
      obtain ⟨⟨rest, y⟩, -, rfl⟩ := List.mem_map.1 ht
      obtain ⟨⟨rest', y'⟩, -, rfl⟩ := List.mem_map.1 ht'
      obtain ⟨i, hi, -⟩ := (hMem s.1 s.2).1 hs
      obtain ⟨i', hi', -⟩ := (hMem s'.1 s'.2).1 hs'
      rw [hi, hi', List.cons_lt_cons_iff] at hLt
      -- Both are one step, so the first index decides.
      rcases hLt with hLt | ⟨-, hLt⟩
      · rw [hi, hi']
        exact List.cons_lt_cons_iff.2 (Or.inl hLt)
      · exact absurd hLt (List.lt_irrefl _)
  · intro a y
    rw [List.mem_flatMap]
    constructor
    · rintro ⟨⟨step, x⟩, hs, ht⟩
      obtain ⟨⟨rest, y⟩, hRest, hEq⟩ := List.mem_map.1 ht
      obtain ⟨rfl, rfl⟩ := Prod.mk.inj hEq
      obtain ⟨i, rfl, hStands⟩ := (hMem step x).1 hs
      exact ⟨i, x, rest, rfl, hStands, ((hInner _ hs).2.2 rest y).1 hRest⟩
    · rintro ⟨i, x, rest, rfl, hStands, hy⟩
      have hs := (hMem [i] x).2 ⟨i, rfl, hStands⟩
      exact ⟨([i], x), hs, List.mem_map.2 ⟨(rest, y), ((hInner _ hs).2.2 rest y).2 hy, rfl⟩⟩

theorem cons (h : InOrder stands xs) (hBelow : ∀ x, ¬ stands [] x) (y : α) :
    InOrder (fun a x => a = [] ∧ x = y ∨ stands a x) (y :: xs) := by
  obtain ⟨sites, rfl, hOrder, hMem⟩ := h
  refine ⟨([], y) :: sites, rfl, List.pairwise_cons.2 ⟨?_, hOrder⟩, fun a x => ?_⟩
  · rintro ⟨a, x⟩ hSite
    cases a with
    | nil => exact absurd ((hMem [] x).1 hSite) (hBelow x)
    | cons i rest => exact List.nil_lt_cons i rest
  · rw [List.mem_cons, hMem, Prod.mk.injEq]

theorem nil : InOrder (fun _ (_ : α) => False) [] := ⟨[], rfl, List.Pairwise.nil, by simp⟩

theorem singleton (y : α) : InOrder (fun a x => a = [] ∧ x = y) [y] :=
  (nil.cons (fun _ => id) y).congr fun _ _ => or_iff_left id

theorem indexed (xs : List α) : InOrder (fun a x => ∃ i, a = [i] ∧ xs[i]? = some x) xs := by
  refine ⟨xs.zipIdx.map fun p => ([p.2], p.1), ?_, ?_, fun a x => ?_⟩
  · rw [List.map_map]
    exact List.zipIdx_map_fst 0 xs
  · rw [List.pairwise_map, List.pairwise_iff_getElem]
    intro i j hi hj hLt
    rw [List.getElem_zipIdx, List.getElem_zipIdx, List.cons_lt_cons_iff]
    exact Or.inl (Nat.add_lt_add_left hLt 0)
  · rw [List.mem_map]
    constructor
    · rintro ⟨⟨x, i⟩, hMem, hEq⟩
      obtain ⟨rfl, rfl⟩ := Prod.mk.inj hEq
      exact ⟨i, rfl, List.mem_zipIdx_iff_getElem?.1 hMem⟩
    · rintro ⟨i, rfl, hGet⟩
      exact ⟨(x, i), List.mem_zipIdx_iff_getElem?.2 hGet, rfl⟩

end InOrder

namespace Node

variable {n root : Node} {kind : String}

/-! ### The nodes of a tree -/

def at? (n : Node) : Address → Option Node
  | [] => some n
  | i :: rest => n.children[i]?.bind (·.at? rest)

theorem preorderAll_eq (ns : List Node) : preorderAll ns = ns.flatMap preorder := by
  induction ns with
  | nil => rfl
  | cons n ns ih => rw [preorderAll, List.flatMap_cons, ih]

theorem weigh_lt_of_mem {child : Node} (h : child ∈ n.children) : child.weigh < n.weigh := by
  obtain ⟨front, back, hChildren⟩ := List.append_of_mem h
  rw [weigh_eq n, hChildren, weighAll_append, weighAll]
  omega

/-- **Preorder is the order of addresses.** -/
theorem inOrder_preorder (n : Node) : InOrder (fun a m => n.at? a = some m) n.preorder := by
  have hBelow : ∀ c ∈ n.children, InOrder (fun a m => c.at? a = some m) c.preorder := fun c _ =>
    inOrder_preorder c
  rw [preorder_eq, preorderAll_eq]
  refine (((InOrder.indexed n.children).flatMap hBelow).cons ?_ n).congr fun a m => ?_
  · rintro m ⟨i, c, rest, hNil, -⟩
    cases hNil
  · cases a with
    | nil => simp [at?, eq_comm]
    | cons i rest => simp [at?, Option.bind_eq_some_iff]
termination_by n.weigh
decreasing_by exact weigh_lt_of_mem ‹_›

/-! ### The loop -/

/-- A loop over a stack of nodes, the top of which is last: it takes off the top node, notes the
construct that this is, and puts the node's children on the stack, the first of them on top. When the
stack is empty it ends, with the constructs that it has noted. -/
inductive Unwinds : List Node → List BraceConstruct → Prop
  | done : Unwinds [] []
  | step {n : Node} {stack : List Node} {found : List BraceConstruct}
      (h : Unwinds (stack ++ n.children.reverse) found) :
      Unwinds (stack ++ [n]) (n.construct?.toList ++ found)

/-- **The loop ends**, with the constructs among the nodes on the stack and below them. -/
theorem unwinds_iff {stack : List Node} {found : List BraceConstruct} :
    Unwinds stack found ↔ found = constructsOf stack.reverse := by
  constructor
  · intro h
    induction h with
    | done => rw [List.reverse_nil, constructsOf]
    | step _ ih =>
      rw [List.reverse_append, List.reverse_reverse] at ih
      rw [ih, List.reverse_append, List.reverse_singleton, List.singleton_append, constructsOf]
  · rintro rfl
    obtain ⟨ns, rfl⟩ := List.reverse_surjective stack
    rw [List.reverse_reverse]
    fun_induction constructsOf ns with
    | case1 => exact .done
    | case2 n rest ih =>
      rw [List.reverse_append] at ih
      rw [List.reverse_cons]
      exact .step ih

/-! ### Children by their places -/

/-- The named child at an index that is no comment. -/
def NamedAt (n : Node) (i : Nat) (child : Node) : Prop :=
  n.children[i]? = some child ∧ child.named = true ∧ child.isComment = false

/-- The first child of a kind, and its index. -/
def FirstAt (n : Node) (kind : String) (i : Nat) (child : Node) : Prop :=
  n.children[i]? = some child ∧ child.kind = kind ∧
    ∀ j < i, ∀ sibling, n.children[j]? = some sibling → sibling.kind ≠ kind

theorem inOrder_namedChildren (n : Node) :
    InOrder (fun a c => ∃ i, a = [i] ∧ n.NamedAt i c) n.namedChildren := by
  refine ((InOrder.indexed n.children).filter _).congr fun a c => ?_
  rw [Bool.and_eq_true, Bool.not_eq_true']
  exact ⟨fun ⟨⟨i, ha, hGet⟩, hc⟩ => ⟨i, ha, hGet, hc⟩, fun ⟨i, ha, hGet, hc⟩ => ⟨⟨i, ha, hGet⟩, hc⟩⟩

theorem child?_eq_some {child : Node} :
    n.child? kind = some child ↔ ∃ i, n.FirstAt kind i child := by
  simp only [child?, List.find?_eq_some_iff_getElem, FirstAt, beq_iff_eq]
  constructor
  · rintro ⟨hKind, i, hi, rfl, hFirst⟩
    refine ⟨i, List.getElem?_eq_getElem hi, hKind, fun j hj sibling hGet => ?_⟩
    obtain ⟨hj', rfl⟩ := List.getElem?_eq_some_iff.1 hGet
    simpa using hFirst j hj
  · rintro ⟨i, hGet, hKind, hFirst⟩
    obtain ⟨hi, rfl⟩ := List.getElem?_eq_some_iff.1 hGet
    refine ⟨hKind, i, hi, rfl, fun j hj => ?_⟩
    simpa using hFirst j hj _ (List.getElem?_eq_getElem (Nat.lt_trans hj hi))

theorem FirstAt.unique {i j : Nat} {child other : Node} (h : n.FirstAt kind i child)
    (h' : n.FirstAt kind j other) : i = j := by
  rcases Nat.lt_trichotomy i j with hLt | hEq | hLt
  · exact absurd h.2.1 (h'.2.2 i hLt child h.1)
  · exact hEq
  · exact absurd h'.2.1 (h.2.2 j hLt other h'.1)

theorem inOrder_child? (n : Node) (kind : String) :
    InOrder (fun a c => ∃ i, a = [i] ∧ n.FirstAt kind i c) (n.child? kind).toList := by
  cases hChild : n.child? kind with
  | none =>
    refine InOrder.nil.congr fun a c => iff_of_false id ?_
    rintro ⟨i, -, hFirst⟩
    cases hChild.symm.trans (child?_eq_some.2 ⟨i, hFirst⟩)
  | some child =>
    obtain ⟨i, hFirst⟩ := child?_eq_some.1 hChild
    refine ⟨[([i], child)], rfl, List.pairwise_singleton .., fun a c => ?_⟩
    rw [List.mem_singleton, Prod.mk.injEq]
    constructor
    · rintro ⟨rfl, rfl⟩
      exact ⟨i, rfl, hFirst⟩
    · rintro ⟨j, rfl, hFirst'⟩
      obtain rfl := hFirst.unique hFirst'
      exact ⟨rfl, Option.some.inj (hFirst'.1.symm.trans hFirst.1)⟩

/-! ### Elements by their addresses -/

def nodeKind : ConstructKind → String
  | .objectExpression => "object"
  | .objectPattern => "object_pattern"
  | .importDeclaration => "import_statement"
  | .exportDeclaration => "export_statement"

/-- The elements of a construct of a kind, at their addresses below its node. Only named nodes are
elements. -/
inductive ElementAt : ConstructKind → Node → Address → Element → Prop
  | property {kind : ConstructKind} {n c : Node} {i : Nat}
    (hObject : kind = .objectExpression ∨ kind = .objectPattern) (h : n.NamedAt i c) :
    ElementAt kind n [i] ⟨.property, c⟩
  | default {n clause c : Node} {i j : Nat} (hClause : n.FirstAt "import_clause" i clause)
    (h : clause.NamedAt j c) (hKind : c.kind = "identifier") :
    ElementAt .importDeclaration n [i, j] ⟨.default, c⟩
  | star {n clause c : Node} {i j : Nat} (hClause : n.FirstAt "import_clause" i clause)
    (h : clause.NamedAt j c) (hKind : c.kind = "namespace_import") :
    ElementAt .importDeclaration n [i, j] ⟨.namespace, c⟩
  | imported {n clause list c : Node} {i j k : Nat} (hClause : n.FirstAt "import_clause" i clause)
    (hList : clause.NamedAt j list) (hListKind : list.kind = "named_imports")
    (h : list.NamedAt k c) (hKind : c.kind = "import_specifier") :
    ElementAt .importDeclaration n [i, j, k] ⟨.named, c⟩
  | exported {n clause c : Node} {i j : Nat} (hClause : n.FirstAt "export_clause" i clause)
    (h : clause.NamedAt j c) (hKind : c.kind = "export_specifier") :
    ElementAt .exportDeclaration n [i, j] ⟨.named, c⟩

theorem ElementAt.isComment_eq_false {kind : ConstructKind} {a : Address} {e : Element}
    (h : ElementAt kind n a e) : e.node.isComment = false := by
  cases h with
  | property _ h | default _ h | star _ h | imported _ _ _ h | exported _ h =>
    exact h.2.2

theorem inOrder_properties (n : Node) {kind : ConstructKind}
    (hObject : kind = .objectExpression ∨ kind = .objectPattern) :
    InOrder (ElementAt kind n) (n.namedChildren.map (⟨.property, ·⟩)) := by
  refine ((inOrder_namedChildren n).map _).congr fun a e => ?_
  constructor
  · rintro ⟨c, ⟨i, rfl, hNamed⟩, rfl⟩
    exact .property hObject hNamed
  · intro h
    cases h with
    | property _ hNamed => exact ⟨_, ⟨_, rfl, hNamed⟩, rfl⟩
    | default | star | imported | exported => simp at hObject

theorem inOrder_specifiers (n : Node) (kind : String) :
    InOrder (fun a e => ∃ i c, a = [i] ∧ n.NamedAt i c ∧ c.kind = kind ∧ e = ⟨.named, c⟩)
      (n.specifiers kind) := by
  refine (((inOrder_namedChildren n).filter _).map _).congr fun a e => ?_
  constructor
  · rintro ⟨c, ⟨⟨i, ha, hNamed⟩, hKind⟩, rfl⟩
    exact ⟨i, c, ha, hNamed, beq_iff_eq.1 hKind, rfl⟩
  · rintro ⟨i, c, ha, hNamed, hKind, rfl⟩
    exact ⟨c, ⟨⟨i, ha, hNamed⟩, beq_iff_eq.2 hKind⟩, rfl⟩

theorem inOrder_importElements (n : Node) :
    InOrder (fun a e => (a = [] ∧ n.kind = "identifier" ∧ e = ⟨.default, n⟩) ∨
      (a = [] ∧ n.kind = "namespace_import" ∧ e = ⟨.namespace, n⟩) ∨
      (n.kind = "named_imports" ∧
        ∃ k c, a = [k] ∧ n.NamedAt k c ∧ c.kind = "import_specifier" ∧ e = ⟨.named, c⟩))
      n.importElements := by
  unfold importElements
  split
  next hKind => exact (InOrder.singleton _).congr fun a e => by simp [hKind]
  split
  next hKind => exact (InOrder.singleton _).congr fun a e => by simp [hKind]
  split
  next hKind => exact (inOrder_specifiers n _).congr fun a e => by simp [hKind]
  next hDefault hNamespace hList => exact InOrder.nil.congr fun a e => by simp [*]

theorem inOrder_importedElements (n : Node) :
    InOrder (ElementAt .importDeclaration n) n.importedElements := by
  have hFlat : n.importedElements = (n.child? "import_clause").toList.flatMap fun clause =>
      clause.namedChildren.flatMap importElements := by
    unfold importedElements
    cases n.child? "import_clause" <;> simp
  rw [hFlat]
  refine ((inOrder_child? n _).flatMap fun clause _ =>
    (inOrder_namedChildren clause).flatMap fun c _ => inOrder_importElements c).congr fun a e => ?_
  constructor
  · rintro ⟨i, clause, _, rfl, hClause, j, c, _, rfl, h, hElement⟩
    rcases hElement with ⟨rfl, hKind, rfl⟩ | ⟨rfl, hKind, rfl⟩ | ⟨hList, k, d, rfl, hName, hKind, rfl⟩
    · exact .default hClause h hKind
    · exact .star hClause h hKind
    · exact .imported hClause h hList hName hKind
  · intro h
    cases h with
    | default hClause h hKind =>
      exact ⟨_, _, _, rfl, hClause, _, _, _, rfl, h, Or.inl ⟨rfl, hKind, rfl⟩⟩
    | star hClause h hKind =>
      exact ⟨_, _, _, rfl, hClause, _, _, _, rfl, h, Or.inr (Or.inl ⟨rfl, hKind, rfl⟩)⟩
    | imported hClause hList hListKind h hKind =>
      exact ⟨_, _, _, rfl, hClause, _, _, _, rfl, hList,
        Or.inr (Or.inr ⟨hListKind, _, _, rfl, h, hKind, rfl⟩)⟩
    | property hObject => simp at hObject

theorem inOrder_exportedElements (n : Node) :
    InOrder (ElementAt .exportDeclaration n) n.exportedElements := by
  have hFlat : n.exportedElements = (n.child? "export_clause").toList.flatMap fun clause =>
      clause.specifiers "export_specifier" := by
    unfold exportedElements
    cases n.child? "export_clause" <;> simp
  rw [hFlat]
  refine ((inOrder_child? n _).flatMap fun clause _ =>
    inOrder_specifiers clause _).congr fun a e => ?_
  constructor
  · rintro ⟨i, clause, _, rfl, hClause, j, c, rfl, h, hKind, rfl⟩
    exact .exported hClause h hKind
  · intro h
    cases h with
    | exported hClause h hKind => exact ⟨_, _, _, rfl, hClause, _, _, rfl, h, hKind, rfl⟩
    | property hObject => simp at hObject

/-- **The elements of a construct**, in the order of their addresses. -/
theorem inOrder_elements {c : BraceConstruct} (h : n.construct? = some c) :
    InOrder (ElementAt c.kind n) c.elements := by
  rcases construct?_eq_some h with ⟨-, rfl⟩ | ⟨-, rfl⟩ | ⟨-, rfl⟩ | ⟨-, rfl⟩
  · exact inOrder_properties n (Or.inl rfl)
  · exact inOrder_properties n (Or.inr rfl)
  · exact inOrder_importedElements n
  · exact inOrder_exportedElements n

/-! ### Constructs by their addresses -/

theorem exists_construct?_iff {kind : ConstructKind} :
    (∃ c, n.construct? = some c ∧ c.kind = kind) ↔ n.kind = nodeKind kind := by
  constructor
  · rintro ⟨c, h, rfl⟩
    rcases construct?_eq_some h with ⟨hKind, rfl⟩ | ⟨hKind, rfl⟩ | ⟨hKind, rfl⟩ | ⟨hKind, rfl⟩
    · exact hKind
    · exact hKind
    · exact hKind
    · exact hKind
  · intro hKind
    unfold construct?
    cases kind <;> simp [hKind, nodeKind]

/-- **The constructs of a tree.** The loop over a stack ends, and what it finds is what a recursion on
the tree finds: one construct for each node of the four kinds, in the order of the addresses. The
elements of each are exactly the nodes that are such by their addresses, in order, and no comments. -/
theorem constructs_of_tree (root : Node) :
    (∀ found, Unwinds [root] found ↔ found = root.constructs) ∧
    root.constructs = root.preorder.filterMap construct? ∧
    InOrder (fun a p => root.at? a = some p.2 ∧ p.2.kind = nodeKind p.1)
      (root.constructs.map fun c => (c.kind, c.node)) ∧
    ∀ c ∈ root.constructs, InOrder (ElementAt c.kind c.node) c.elements ∧
      ∀ e ∈ c.elements, e.node.isComment = false := by
  have hPreorder : root.constructs = root.preorder.filterMap construct? := by
    rw [constructs_eq, List.filterMap_eq_flatMap_toList]
  refine ⟨fun found => unwinds_iff, hPreorder, ?_, ?_⟩
  · rw [hPreorder]
    refine (((inOrder_preorder root).filterMap construct?).map _).congr fun a p => ?_
    obtain ⟨kind, n⟩ := p
    rw [← exists_construct?_iff]
    constructor
    · rintro ⟨c, ⟨m, hAt, hConstruct⟩, hEq⟩
      obtain ⟨rfl, rfl⟩ := Prod.mk.inj hEq
      rw [node_eq_of_construct? hConstruct]
      exact ⟨hAt, c, hConstruct, rfl⟩
    · rintro ⟨hAt, c, hConstruct, rfl⟩
      exact ⟨c, ⟨n, hAt, hConstruct⟩, Prod.ext rfl (node_eq_of_construct? hConstruct)⟩
  · intro c hc
    obtain ⟨n, -, hConstruct⟩ := mem_constructs.1 hc
    have hElements := inOrder_elements hConstruct
    rw [node_eq_of_construct? hConstruct]
    refine ⟨hElements, fun e he => ?_⟩
    obtain ⟨a, hAt⟩ := hElements.exists_of_mem he
    exact hAt.isComment_eq_false

/-- The tree of an export list with one name, for which there is a node that is not a named one. -/
def unnamedExport : Node :=
  ⟨"export_statement", true, 0, 10, [⟨"export", false, 0, 6, []⟩, ⟨"export_clause", true, 7, 10,
    [⟨"\x7b", false, 7, 8, []⟩, ⟨"export_specifier", false, 8, 9, []⟩,
      ⟨"\x7d", false, 9, 10, []⟩]⟩]⟩

/-- A child of the export clause that has the kind of its names, and is not named, is no element. -/
theorem unnamed_not_exported :
    ∃ clause name, unnamedExport.FirstAt "export_clause" 1 clause ∧ name ∈ clause.children ∧
      name.kind = "export_specifier" ∧ name.isComment = false ∧
      unnamedExport.constructs = [⟨.exportDeclaration, unnamedExport, []⟩] := by
  refine ⟨_, _, ⟨rfl, rfl, ?_⟩, List.mem_cons_of_mem _ List.mem_cons_self, rfl, rfl, ?_⟩
  · intro j hj sibling hSibling
    obtain rfl := Nat.lt_one_iff.1 hj
    obtain rfl := Option.some.inj hSibling
    decide
  · rw [constructs_eq]
    rfl

end Node

end TidySpace
