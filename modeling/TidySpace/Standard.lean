import TidySpace.Registry
import TidySpace.Rule.CurlySpacing
import TidySpace.Rule.TrailingSpaces

/-! # The standard rules

JavaScript, the two rules for it, and the registry that holds them.
-/

namespace TidySpace

def Language.javascript : Language where
  name := "javascript"
  extensions := [".js", ".jsx", ".mjs", ".cjs"]
  constructs? := some Node.constructs

def Rule.listed (rule : Rule) : Listed Rule := ⟨rule.id, rule.languages, rule⟩

namespace Standard

/-- The packages in which rules can be looked for. One has none. -/
def packages : List (String × Package Rule) :=
  let spaces := ("spacelint.rules.style_no_trailing_spaces", [TrailingSpaces.rule.listed])
  let braces := ("spacelint.rules.style_object_curly_spacing", [CurlySpacing.rule.listed])
  [("spacelint.engine", {}),
    ("spacelint.rules", { modules := [(spaces.1, some spaces.2), (braces.1, some braces.2)] }),
    (spaces.1, { rules := spaces.2 }),
    (braces.1, { rules := braces.2 })]

def registry : Registry Rule Language where
  rules := [TrailingSpaces.rule.listed, CurlySpacing.rule.listed]
  index := [(TrailingSpaces.id, TrailingSpaces.rule.listed), (CurlySpacing.id, CurlySpacing.rule.listed)]
  handlers := [⟨"javascript", Language.javascript.extensions, Language.javascript⟩]

end Standard

end TidySpace
