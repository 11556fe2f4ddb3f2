/-! # Syntax trees

A node has a kind, a byte range and children in order; a node that the grammar names is *named*,
punctuation is not. Nothing is assumed of the ranges: nodes may be empty, overlap or reach past the
text. `Node.preorder` lists a node and all below it; the work-list recursions of this library run
over lists of nodes and end because `Node.weigh` falls.
-/

namespace TidySpace

/-- A node of a syntax tree; `start` and `stop` are byte offsets. -/
structure Node where
  kind : String
  named : Bool
  start : Nat
  stop : Nat
  children : List Node
  deriving Inhabited

namespace Node

def isComment (n : Node) : Bool := n.kind == "comment" || n.kind == "html_comment"

/-- Nodes whose children are no tokens of their own: strings, regular expressions, text between
markup, and templates without a substitution. -/
def isAtomic (n : Node) : Bool :=
  n.kind == "string" || n.kind == "regex" || n.kind == "jsx_text" ||
    (n.kind == "template_string" && !n.children.any (·.kind == "template_substitution"))

def child? (n : Node) (kind : String) : Option Node := n.children.find? (·.kind == kind)

def namedChildren (n : Node) : List Node := n.children.filter fun c => c.named && !c.isComment

mutual

/-- The node and all nodes below it, parents first and siblings in order. -/
def preorder (n : Node) : List Node :=
  match n with
  | ⟨kind, named, start, stop, children⟩ =>
    ⟨kind, named, start, stop, children⟩ :: preorderAll children

def preorderAll : List Node → List Node
  | [] => []
  | n :: ns => preorder n ++ preorderAll ns

end

mutual

/-- The number of nodes of a tree. -/
def weigh (n : Node) : Nat :=
  match n with
  | ⟨_, _, _, _, children⟩ => weighAll children + 1

def weighAll : List Node → Nat
  | [] => 0
  | n :: ns => weigh n + weighAll ns

end

theorem preorder_eq (n : Node) : n.preorder = n :: preorderAll n.children := by
  obtain ⟨kind, named, start, stop, children⟩ := n
  rw [preorder]

theorem weigh_eq (n : Node) : n.weigh = weighAll n.children + 1 := by
  obtain ⟨kind, named, start, stop, children⟩ := n
  rw [weigh]

@[simp] theorem preorderAll_append (ns ms : List Node) :
    preorderAll (ns ++ ms) = preorderAll ns ++ preorderAll ms := by
  induction ns with
  | nil => rw [preorderAll]; rfl
  | cons n ns ih => simp [preorderAll, ih]

@[simp] theorem weighAll_append (ns ms : List Node) :
    weighAll (ns ++ ms) = weighAll ns + weighAll ms := by
  induction ns with
  | nil => simp [weighAll]
  | cons n ns ih => simp [weighAll, ih, Nat.add_assoc]

end Node

/-! ### Trees as rows

A tree is written as its nodes in order, each with its depth. Reading them from the last to the first, a
row takes as its children the trees that stand right behind it and are deeper.
-/

structure Row where
  depth : Nat
  kind : String
  named : Bool
  start : Nat
  stop : Nat
  deriving DecidableEq, Repr

namespace Row

def attach (row : Row) (trees : List (Nat × Node)) : List (Nat × Node) :=
  let isBelow := fun t : Nat × Node => row.depth < t.1
  (row.depth, ⟨row.kind, row.named, row.start, row.stop, (trees.takeWhile isBelow).map Prod.snd⟩) ::
    trees.dropWhile isBelow

end Row

/-- The tree of rows; its root is the first of them. -/
def Node.ofRows? (rows : List Row) : Option Node :=
  (rows.foldr Row.attach []).head?.map Prod.snd

end TidySpace
