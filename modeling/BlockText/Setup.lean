import BlockText.Catalogue.Builtin
import BlockText.Rules

/-!
# Setups

Blocks and text are converted under a setup: the definitions, the rules and the layout of the text.
-/

namespace BlockText

/-- What a conversion goes by. -/
structure Setup where
  registry : Registry := .builtin
  rules : Rules := .standard
  options : Options := {}

end BlockText
