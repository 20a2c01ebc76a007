import LexicalLisp.Store.Basic
import LexicalLisp.Text.Quoted

/-!
# Diagnostic text

A second written form of values and scopes that shows how they are built. Strings
appear as they are between quotes, operator applications are told apart from
lists, and a function shows the arities that the store has for it.
-/
namespace LexicalLisp

def Arity.diagnostic : Arity → String
  | exactly n => s!"Exact({n})"
  | atLeast n => s!"AtLeast({n})"
  | any => "Any"

def Operator.diagnostic (o : Operator) : String :=
  let kind := if o.isForm then "SpecialForm(<fn>)" else "Function(<fn>)"
  s!"BuiltinOp \x7b scheme_id: {Text.quoted o.name}, op_kind: {kind}, arity: "
    ++ s!"{o.arity.diagnostic} \x7d"

/-- A value under the name of what it is. -/
def labelled (label content : String) : String := label ++ "(" ++ content ++ ")"

def FunctionRef.diagnostic (f : FunctionRef) (arities : List Nat) : String :=
  let list := ", ".intercalate (arities.map toString)
  s!"Function \x7b name: {Text.quoted f.name}, arities: [{list}], .. \x7d"

namespace Store

mutual

def diagnostic (s : Store) : Value → String
  | .number n => labelled "Number" (String.ofList (Numeral.decimal n))
  | .symbol a => labelled "Symbol" a.render
  | .string t => labelled "String" ("\"" ++ t ++ "\"")
  | .bool b => labelled "Bool" (toString b)
  | .list elements => labelled "List" (s.diagnosticAll elements)
  | .op o args => labelled "PrecompiledOp" (o.name ++ ", args=[" ++ s.diagnosticAll args ++ "]")
  | .builtin id _ => labelled "BuiltinFunction" id
  | .function f => f.diagnostic (s.arities f)
  | .unspecified => "Unspecified"

/-- The texts of several values with commas between them. -/
def diagnosticAll (s : Store) : List Value → String
  | [] => ""
  | [v] => s.diagnostic v
  | v :: w :: rest => s.diagnostic v ++ ", " ++ s.diagnosticAll (w :: rest)

end

def diagnosticScope (s : Store) (e : EnvRef) : String :=
  let names := ", ".intercalate ((s.frame e).names.map Text.quoted)
  s!"Scope \x7b local: \x7b{names}\x7d, body: [{s.diagnosticAll (s.body e)}], "
    ++ s!"active: {s.isActive e} \x7d"

end Store
end LexicalLisp
