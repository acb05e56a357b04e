/-!
# Constant expressions

What stands as a parameter default, as the value of a class constant, or behind `return`: scalars,
arrays, references to class constants, operators over these, and source text for all else.
-/
namespace FacadeStubs

mutual

/-- A constant expression. Integers are 64-bit, class names are full names without the leading
backslash. -/
inductive Literal where
  | null
  | bool (value : Bool)
  | int (value : Int64)
  | float (value : Float)
  | str (value : String)
  | array (entries : List ArrayEntry)
  /-- A constant of a known class. -/
  | classConst (cls name : String)
  /-- A constant of the class that is called; `cls` is the class that declares the expression. -/
  | lateStatic (cls name : String)
  | binary (op : String) (left right : Literal)
  | unary (op : Char) (operand : Literal)
  /-- Source text in which class names are absolute. -/
  | expr (source : String)

/-- An entry of an array, with or without a key. -/
inductive ArrayEntry where
  | item (value : Literal)
  | pair (key value : Literal)

end

instance : Inhabited Literal := ⟨.null⟩

namespace ArrayEntry

def key? : ArrayEntry → Option Literal
  | item _ => none
  | pair key _ => some key

def value : ArrayEntry → Literal
  | item value => value
  | pair _ value => value

end ArrayEntry

/-- Whether a constant expression is kept as source text. -/
def Literal.isExpr : Literal → Bool
  | .expr _ => true
  | _ => false

end FacadeStubs
