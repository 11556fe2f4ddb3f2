import TidySpace.Construct

/-! # The constructs of a tree

The work list of `Node.constructsOf` goes through a tree in preorder: the constructs are those that
its nodes are, parents first (`constructsOf_eq`). The nodes of a construct and of its elements are
nodes of the tree (`elements_mem_preorder`).
-/

namespace TidySpace.Node

theorem preorderAll_cons (n : Node) (rest : List Node) :
    preorderAll (n :: rest) = n :: preorderAll (n.children ++ rest) := by
  rw [preorderAll, preorder_eq, List.cons_append, preorderAll_append]

/-- **The constructs of a tree are those of its nodes in preorder.** -/
theorem constructsOf_eq (ns : List Node) :
    constructsOf ns = (preorderAll ns).flatMap fun n => n.construct?.toList := by
  fun_induction constructsOf ns with
  | case1 => rw [preorderAll]; rfl
  | case2 n rest ih => rw [preorderAll_cons, List.flatMap_cons, ih]

theorem constructs_eq (root : Node) :
    root.constructs = root.preorder.flatMap fun n => n.construct?.toList := by
  rw [constructs, constructsOf_eq, preorderAll, preorderAll, List.append_nil]

theorem mem_constructs {root : Node} {c : BraceConstruct} :
    c ∈ root.constructs ↔ ∃ n ∈ root.preorder, n.construct? = some c := by
  rw [constructs_eq, List.mem_flatMap]
  simp only [Option.mem_toList]

/-! ### Nodes of a tree -/

theorem subset_preorderAll (ns : List Node) : ns ⊆ preorderAll ns := by
  induction ns with
  | nil => exact List.nil_subset _
  | cons n ns ih =>
    rw [preorderAll_cons, preorderAll_append]
    exact List.cons_subset_cons n fun m hm => List.mem_append_right _ (ih hm)

theorem children_subset_preorderAll (ns : List Node) :
    ∀ n ∈ preorderAll ns, n.children ⊆ preorderAll ns := by
  induction ns using constructsOf.induct with
  | case1 => exact fun n hn => by rw [preorderAll] at hn; exact absurd hn List.not_mem_nil
  | case2 m rest ih =>
    rw [preorderAll_cons]
    intro n hn child hChild
    refine List.mem_cons_of_mem m ?_
    rcases List.mem_cons.1 hn with rfl | hn
    · exact subset_preorderAll _ (List.mem_append_left rest hChild)
    · exact ih n hn hChild

theorem children_subset_preorder {root n : Node} (hn : n ∈ root.preorder) :
    n.children ⊆ root.preorder := by
  have h := children_subset_preorderAll [root]
  rw [preorderAll, preorderAll, List.append_nil] at h
  exact h n hn

/-! ### Nodes of a construct -/

theorem mem_of_child? {n child : Node} {kind : String} (h : n.child? kind = some child) :
    child ∈ n.children :=
  List.mem_of_find?_eq_some h

theorem kind_of_child? {n child : Node} {kind : String} (h : n.child? kind = some child) :
    child.kind = kind :=
  beq_iff_eq.1 (@List.find?_some Node (fun k => k.kind == kind) child n.children h)

theorem node_mem_of_specifiers {n : Node} {kind : String} {e : Element} (h : e ∈ n.specifiers kind) :
    e.node ∈ n.children := by
  obtain ⟨m, hm, rfl⟩ := List.mem_map.1 h
  exact (List.mem_filter.1 (List.mem_filter.1 hm).1).1

theorem construct?_eq_some {n : Node} {c : BraceConstruct} (h : n.construct? = some c) :
    (n.kind = "object" ∧ c = ⟨.objectExpression, n, n.namedChildren.map (⟨.property, ·⟩)⟩) ∨
      (n.kind = "object_pattern" ∧ c = ⟨.objectPattern, n, n.namedChildren.map (⟨.property, ·⟩)⟩) ∨
      (n.kind = "import_statement" ∧ c = ⟨.importDeclaration, n, n.importedElements⟩) ∨
      (n.kind = "export_statement" ∧ c = ⟨.exportDeclaration, n, n.exportedElements⟩) := by
  unfold construct? at h
  split at h
  next hKind => exact Or.inl ⟨hKind, (Option.some.inj h).symm⟩
  split at h
  next hKind => exact Or.inr (Or.inl ⟨hKind, (Option.some.inj h).symm⟩)
  split at h
  next hKind => exact Or.inr (Or.inr (Or.inl ⟨hKind, (Option.some.inj h).symm⟩))
  split at h
  next hKind => exact Or.inr (Or.inr (Or.inr ⟨hKind, (Option.some.inj h).symm⟩))
  next => cases h

theorem node_eq_of_construct? {n : Node} {c : BraceConstruct} (h : n.construct? = some c) :
    c.node = n := by
  rcases construct?_eq_some h with ⟨-, rfl⟩ | ⟨-, rfl⟩ | ⟨-, rfl⟩ | ⟨-, rfl⟩
  · rfl
  · rfl
  · rfl
  · rfl

theorem elements_mem_preorder {root n : Node} {c : BraceConstruct} (hn : n ∈ root.preorder)
    (h : n.construct? = some c) : ∀ e ∈ c.elements, e.node ∈ root.preorder := by
  have hChildren : ∀ e ∈ n.namedChildren.map (⟨.property, ·⟩ : Node → Element),
      e.node ∈ root.preorder := by
    intro e he
    obtain ⟨m, hm, rfl⟩ := List.mem_map.1 he
    exact children_subset_preorder hn (List.mem_filter.1 hm).1
  rcases construct?_eq_some h with ⟨-, rfl⟩ | ⟨-, rfl⟩ | ⟨-, rfl⟩ | ⟨-, rfl⟩
  · exact hChildren
  · exact hChildren
  · intro e he
    replace he : e ∈ n.importedElements := he
    unfold importedElements at he
    split at he
    next clause hClause =>
      have hClauseMem := children_subset_preorder hn (mem_of_child? hClause)
      obtain ⟨m, hm, he⟩ := List.mem_flatMap.1 he
      have hMem := children_subset_preorder hClauseMem (List.mem_filter.1 hm).1
      unfold importElements at he
      split at he
      next => rw [List.mem_singleton.1 he]; exact hMem
      split at he
      next => rw [List.mem_singleton.1 he]; exact hMem
      split at he
      next => exact children_subset_preorder hMem (node_mem_of_specifiers he)
      next => exact absurd he List.not_mem_nil
    next => exact absurd he List.not_mem_nil
  · intro e he
    replace he : e ∈ n.exportedElements := he
    unfold exportedElements at he
    split at he
    next clause hClause =>
      have hClauseMem := children_subset_preorder hn (mem_of_child? hClause)
      exact children_subset_preorder hClauseMem (node_mem_of_specifiers he)
    next => exact absurd he List.not_mem_nil

end TidySpace.Node
