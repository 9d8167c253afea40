import GraphQuery.Expr.Basic

/-!
# Building and editing expressions

Some forms are only well built under conditions: a connective has two operands or more, binders
have names, and `exists` has neither a variable nor a filter. The functions here check these
conditions, or change one part of an expression that is there already.

## Main definitions

* `ConstructionFault`: why an expression cannot be built, and its wording.
* `Expr.connective`, `Expr.comprehend`, `Expr.quantify`, `Expr.reduction`: checked construction.
* `Expr.setOrigin?`, `Expr.setFilter?`, `Expr.setMapping?`, `Expr.replace?`: edits of one part.
* `Expr.Legal`: every node is well built.
-/

namespace GraphQuery

/-- A place for a name that must not be empty. -/
inductive BinderRole where
  | comprehension
  | quantified (quantifier : Quantifier)
  | accumulator
  | reduction
  deriving DecidableEq, Repr

def BinderRole.describe : BinderRole → String
  | .comprehension => "list comprehension variable"
  | .quantified quantifier => quantifier.name ++ "() variable"
  | .accumulator => "reduce accumulator"
  | .reduction => "reduce variable"

/-- Why an expression cannot be built. -/
inductive ConstructionFault where
  | tooFewOperands (op : LogicalOp) (count : Nat)
  | emptyName (role : BinderRole)
  | unknownQuantifier (name : String)
  | existsWithParts
  deriving DecidableEq, Repr

def ConstructionFault.reason : ConstructionFault → String
  | .tooFewOperands op count => s!"{op.symbol} needs at least 2 operands, got {count}"
  | .emptyName role => role.describe ++ " must not be empty"
  | .unknownQuantifier name => "unknown predicate `" ++ name ++ "'"
  | .existsWithParts => "exists() takes neither a variable nor a filter"

def ConstructionFault.message (fault : ConstructionFault) : String :=
  "Invalid expression: " ++ fault.reason

namespace Expr

/-! ### Checked construction -/

/-- Refuses an empty name. -/
def checkName (role : BinderRole) (name : String) : Except ConstructionFault Unit :=
  if name.isEmpty then .error (.emptyName role) else .ok ()

/-- A connective over operands. -/
def connective (op : LogicalOp) (operands : List Expr) : Except ConstructionFault Expr :=
  if operands.length < 2 then .error (.tooFewOperands op operands.length)
  else .ok (.logical op operands)

/-- A list comprehension without an origin. -/
def comprehend (binder : String) (collection : Expr) (filter mapping : Option Expr) :
    Except ConstructionFault Expr := do
  checkName .comprehension binder
  return .comprehension binder collection filter mapping none

/-- A quantified predicate without an origin. -/
def quantify (quantifier : Quantifier) (binder : String) (collection : Expr)
    (filter : Option Expr) : Except ConstructionFault Expr := do
  if quantifier = .exists then
    if !binder.isEmpty || filter.isSome then throw .existsWithParts
  else checkName (.quantified quantifier) binder
  return .quantified quantifier binder collection filter none

/-- The quantifier of a name. -/
def quantifierNamed (name : String) : Except ConstructionFault Quantifier :=
  match Quantifier.ofName? name with
  | some quantifier => .ok quantifier
  | none => .error (.unknownQuantifier name)

/-- `exists(collection)`. -/
def existsIn (collection : Expr) : Expr := .quantified .exists "" collection none none

/-- A reduction without an origin. The accumulator is checked before the variable. -/
def reduction (accumulator : String) (initial : Expr) (binder : String)
    (collection mapping : Expr) : Except ConstructionFault Expr := do
  checkName .accumulator accumulator
  checkName .reduction binder
  return .reduce accumulator initial binder collection mapping none

/-! ### Edits -/

/-- An origin is kept only if it is not empty. -/
def keptOrigin (origin : String) : Option String := if origin.isEmpty then none else some origin

/-- Sets the origin of an expression that may have one; an empty text removes it. -/
def setOrigin? (origin : String) : Expr → Option Expr
  | .comprehension binder collection filter mapping _ =>
    some (.comprehension binder collection filter mapping (keptOrigin origin))
  | .quantified quantifier binder collection filter _ =>
    some (.quantified quantifier binder collection filter (keptOrigin origin))
  | .reduce accumulator initial binder collection mapping _ =>
    some (.reduce accumulator initial binder collection mapping (keptOrigin origin))
  | _ => none

/-- Sets or removes the filter of an expression that may have one. -/
def setFilter? (filter : Option Expr) : Expr → Option Expr
  | .comprehension binder collection _ mapping origin =>
    some (.comprehension binder collection filter mapping origin)
  | .quantified quantifier binder collection _ origin =>
    some (.quantified quantifier binder collection filter origin)
  | _ => none

/-- Sets or removes the mapping of a list comprehension. -/
def setMapping? (mapping : Option Expr) : Expr → Option Expr
  | .comprehension binder collection filter _ origin =>
    some (.comprehension binder collection filter mapping origin)
  | _ => none

/-- Puts `part` into a slot that is filled. An absent slot stays absent, and only a label fits
into a placeholder. -/
def replace? (e : Expr) (slot : Slot) (part : Expr) : Option Expr :=
  match e, slot with
  | .comprehension binder _ filter mapping origin, .collection =>
    some (.comprehension binder part filter mapping origin)
  | .comprehension binder collection (some _) mapping origin, .filter =>
    some (.comprehension binder collection (some part) mapping origin)
  | .comprehension binder collection filter (some _) origin, .mapping =>
    some (.comprehension binder collection filter (some part) origin)
  | .quantified quantifier binder _ filter origin, .collection =>
    some (.quantified quantifier binder part filter origin)
  | .quantified quantifier binder collection (some _) origin, .filter =>
    some (.quantified quantifier binder collection (some part) origin)
  | .reduce accumulator _ binder collection mapping origin, .initial =>
    some (.reduce accumulator part binder collection mapping origin)
  | .reduce accumulator initial binder _ mapping origin, .collection =>
    some (.reduce accumulator initial binder part mapping origin)
  | .reduce accumulator initial binder collection _ origin, .mapping =>
    some (.reduce accumulator initial binder collection part origin)
  | .placeholder left right, side =>
    match side, part with
    | .left, .label name => some (.placeholder name right)
    | .right, .label name => some (.placeholder left name)
    | _, _ => none
  | _, _ => none

/-! ### Well-built expressions -/

/-- An expression is well built at its root. -/
def WellBuilt : Expr → Prop
  | .logical _ operands => 2 ≤ operands.length
  | .comprehension binder _ _ _ origin => binder ≠ "" ∧ origin ≠ some ""
  | .quantified quantifier binder _ filter origin =>
    (if quantifier = .exists then binder = "" ∧ filter = none else binder ≠ "") ∧
      origin ≠ some ""
  | .reduce accumulator _ binder _ _ origin =>
    accumulator ≠ "" ∧ binder ≠ "" ∧ origin ≠ some ""
  | _ => True

/-- Every node of an expression is well built. -/
def Legal (e : Expr) : Prop := ∀ n ∈ e.nodes, n.WellBuilt

end Expr

end GraphQuery
