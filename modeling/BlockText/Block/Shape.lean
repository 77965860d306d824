import BlockText.Block.Field
import BlockText.Block.Kind
import BlockText.Dialect.Word

/-!
# Shapes

The shape of a kind says where its blocks may stand (its role), which fields they have and which
inputs. The inputs of the conditional follow from its mutation: a condition and a body for each
branch and one more body for an `else`.
-/

namespace BlockText

/-- The branches of a conditional beside the first: how many `elif`, and whether there is
an `else`. -/
structure Mutation where
  elseIfs : Nat := 0
  hasElse : Bool := false
  deriving DecidableEq

namespace Mutation

instance : Inhabited Mutation := ⟨{}⟩

/-- The number of conditions. -/
def branches (m : Mutation) : Nat := m.elseIfs + 1

/-- Whether the conditions can be counted: a count is a number of 64 bits. -/
def isCountable (m : Mutation) : Bool := m.branches < Nat.pow 2 64

/-- The mutation as it is shown. -/
def shown (m : Mutation) : List Char :=
  "if+".toList ++ Decimal.digits m.elseIfs ++ "elif".toList
    ++ if m.hasElse then "+else".toList else []

end Mutation

/-- What a value is, or has to be. -/
inductive Check where
  | number
  | boolean
  | string
  | any
  deriving DecidableEq

/-- The literal written for an input that holds nothing. -/
def Check.fallback : Check → String
  | number => "0"
  | any => "0"
  | boolean => "False"
  | string => "\"\""

/-- Where blocks of a kind stand: at the top as the root of an event, in a sequence of statements,
in a value input, or only on the palette. -/
inductive Role where
  | root
  | statement
  | value (check : Check)
  | helper
  deriving DecidableEq

/-- A value role. -/
def Role.isValue : Role → Bool
  | value _ => true
  | _ => false

/-- What a field may hold. -/
inductive FieldDomain where
  | number
  | text
  | choice (options : List String)
  | bool
  | bitmap
  | var
  deriving DecidableEq

/-- A field of a shape. -/
structure FieldSpec where
  name : String
  domain : FieldDomain
  default : FieldValue

namespace FieldSpec

/-- A number field. -/
def number (name : String) (x : Double) : FieldSpec := ⟨name, .number, .number x⟩

/-- A text field. -/
def text (name s : String) : FieldSpec := ⟨name, .text, .text s⟩

/-- A field with a list of options; the first is the default. -/
def choice (name : String) (options : List String) : FieldSpec :=
  ⟨name, .choice options, .choice (options.head?.getD "")⟩

/-- A truth field. -/
def bool (name : String) (b : Bool) : FieldSpec := ⟨name, .bool, .bool b⟩

/-- A picture field, dark at first. -/
def bitmap (name : String) : FieldSpec := ⟨name, .bitmap, .bitmap .dark⟩

/-- A variable field. -/
def var (name : String) : FieldSpec := ⟨name, .var, .var "item"⟩

/-- Whether a value may stand in the field: a listed option, an identifier, a finite number, and
otherwise any value of the field's type. -/
def accepts (spec : FieldSpec) (value : FieldValue) : Bool :=
  match spec.domain, value with
  | .choice options, .choice s => options.contains s
  | .var, .var s => Word.isIdentifier s.toList
  | .number, .number x => x.isFinite
  | _, value => spec.default.sameType value

end FieldSpec

/-- The block that fills a value input until another is put there: a kind and the value of one of
its fields. -/
structure ShadowSpec where
  kind : Kind
  field : String
  value : FieldValue

namespace ShadowSpec

/-- A number as a default. -/
def number (x : Double) : ShadowSpec := ⟨.mathNumber, "NUM", .number x⟩

/-- A text as a default. -/
def text (s : String) : ShadowSpec := ⟨.text, "TEXT", .text s⟩

/-- A truth value as a default. -/
def boolean (b : Bool) : ShadowSpec := ⟨.logicBoolean, "BOOL", .bool b⟩

end ShadowSpec

/-- An input of a shape: one value, or a sequence of statements. -/
inductive InputSpec where
  | value (name : String) (check : Check) (shadow : Option ShadowSpec)
  | statement (name : String)

/-- The name of an input. -/
def InputSpec.name : InputSpec → String
  | value name _ _ => name
  | statement name => name

/-! ## The inputs of a conditional -/

namespace Conditional

/-- The condition of a branch. -/
def condition (branch : Nat) : String := "IF" ++ toString branch

/-- The body of a branch. -/
def body (branch : Nat) : String := "DO" ++ toString branch

/-- The body of the `else`. -/
def otherwise : String := "ELSE"

/-- The inputs of a conditional: condition and body of each branch, then the body of the `else`. -/
def inputs (m : Mutation) : List InputSpec :=
  ((List.range m.branches).flatMap fun i =>
      [.value (condition i) .boolean (some (.boolean true)), .statement (body i)])
    ++ if m.hasElse then [.statement otherwise] else []

end Conditional

/-- The inputs of a shape: the same for every block, or those of a conditional. -/
inductive Layout where
  | fixed (inputs : List InputSpec)
  | branching

/-- Role, fields and inputs of a kind. -/
structure Shape where
  role : Role
  fields : List FieldSpec := []
  layout : Layout := .fixed []

namespace Shape

/-- Whether the inputs follow from a mutation. -/
def isBranching (s : Shape) : Bool :=
  match s.layout with
  | .branching => true
  | .fixed _ => false

/-- The inputs of a block with a mutation, or with none. -/
def inputsFor (s : Shape) (m : Option Mutation) : List InputSpec :=
  match s.layout with
  | .branching => Conditional.inputs (m.getD {})
  | .fixed inputs => inputs

/-- The field with a name. -/
def field? (s : Shape) (name : String) : Option FieldSpec := s.fields.find? fun f => f.name == name

end Shape

end BlockText
