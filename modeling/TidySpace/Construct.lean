import TidySpace.Tree

/-! # Brace constructs

The parts of a program whose braces have a spacing rule: object literals, object patterns, and the
lists of import and export declarations. `constructs` finds them in document order, in comments and
in other constructs too, each with its elements.
-/

namespace TidySpace

inductive ConstructKind where
  | objectPattern
  | objectExpression
  | importDeclaration
  | exportDeclaration
  deriving DecidableEq, Repr

def ConstructKind.name : ConstructKind → String
  | .objectPattern => "ObjectPattern"
  | .objectExpression => "ObjectExpression"
  | .importDeclaration => "ImportDeclaration"
  | .exportDeclaration => "ExportNamedDeclaration"

def ConstructKind.all : List ConstructKind :=
  [.objectPattern, .objectExpression, .importDeclaration, .exportDeclaration]

/-- The kinds of elements: a property of an object, the default or the namespace binding of an
import, or a name of a list. -/
inductive ElementKind where
  | property
  | default
  | namespace
  | named
  deriving DecidableEq, Repr

def ElementKind.name : ElementKind → String
  | .property => "property"
  | .default => "default"
  | .namespace => "namespace"
  | .named => "named"

structure Element where
  kind : ElementKind
  node : Node

structure BraceConstruct where
  kind : ConstructKind
  node : Node
  elements : List Element

namespace Node

def specifiers (n : Node) (kind : String) : List Element :=
  (n.namedChildren.filter (·.kind == kind)).map (⟨.named, ·⟩)

/-- The elements that a child of an import clause contributes. -/
def importElements (n : Node) : List Element :=
  if n.kind = "identifier" then [⟨.default, n⟩]
  else if n.kind = "namespace_import" then [⟨.namespace, n⟩]
  else if n.kind = "named_imports" then n.specifiers "import_specifier"
  else []

/-- The elements of an import declaration: those of its first clause. -/
def importedElements (n : Node) : List Element :=
  match n.child? "import_clause" with
  | some clause => clause.namedChildren.flatMap importElements
  | none => []

/-- The elements of an export declaration: the names of its first clause. -/
def exportedElements (n : Node) : List Element :=
  match n.child? "export_clause" with
  | some clause => clause.specifiers "export_specifier"
  | none => []

def construct? (n : Node) : Option BraceConstruct :=
  if n.kind = "object" then
    some ⟨.objectExpression, n, n.namedChildren.map (⟨.property, ·⟩)⟩
  else if n.kind = "object_pattern" then
    some ⟨.objectPattern, n, n.namedChildren.map (⟨.property, ·⟩)⟩
  else if n.kind = "import_statement" then some ⟨.importDeclaration, n, n.importedElements⟩
  else if n.kind = "export_statement" then some ⟨.exportDeclaration, n, n.exportedElements⟩
  else none

def constructsOf : List Node → List BraceConstruct
  | [] => []
  | n :: rest => n.construct?.toList ++ constructsOf (n.children ++ rest)
termination_by ns => weighAll ns
decreasing_by
  simp only [weighAll, weighAll_append, weigh_eq]
  omega

def constructs (n : Node) : List BraceConstruct := constructsOf [n]

end Node

end TidySpace
