import Vimscript.Tree.Tag

/-!
# The rules of the expression grammar

Each rule has the name by which messages call it and the tag by which readers of parse trees know
its nodes. The rules stand in the order of the grammar, with the end of input in front; messages
list what was expected in that order.
-/

namespace Vimscript

/-- A rule of the grammar. -/
inductive Rule where
  | endOfInput
  | expression
  | expr
  | coalesce
  | ternaryThen
  | logicalOr
  | logicalAnd
  | comparison
  | additive
  | multiplicative
  | orOp
  | andOp
  | compareOp
  | addOp
  | mulOp
  | unary
  | unaryOp
  | postfixed
  | subscript
  | sliceSep
  | methodCall
  | callArgs
  | callArg
  | primary
  | blob
  | float
  | integer
  | string
  | list
  | dict
  | dictEntry
  | literalDict
  | literalDictEntry
  | literalDictKey
  | lambdaExpr
  | lambda
  | lambdaParams
  | lambdaParam
  | option
  | optionScope
  | optionName
  | envVariable
  | envName
  | register
  | functionCall
  | variableRef
  | scope
  | functionName
  | variableName
  | scopedName
deriving DecidableEq, Repr

namespace Rule

/-- Every rule, in the order of the grammar. -/
def all : List Rule :=
  [endOfInput, expression, expr, coalesce, ternaryThen, logicalOr, logicalAnd, comparison, additive,
    multiplicative, orOp, andOp, compareOp, addOp, mulOp, unary, unaryOp, postfixed, subscript,
    sliceSep, methodCall, callArgs, callArg, primary, blob, float, integer, string, list, dict,
    dictEntry, literalDict, literalDictEntry, literalDictKey, lambdaExpr, lambda, lambdaParams,
    lambdaParam, option, optionScope, optionName, envVariable, envName, register, functionCall,
    variableRef, scope, functionName, variableName, scopedName]

/-- The name of a rule in messages. -/
def name : Rule → String
  | endOfInput => "EOI"
  | expression => "expression"
  | expr => "expr"
  | coalesce => "coalesce"
  | ternaryThen => "ternary_then"
  | logicalOr => "logical_or"
  | logicalAnd => "logical_and"
  | comparison => "comparison"
  | additive => "additive"
  | multiplicative => "multiplicative"
  | orOp => "or_op"
  | andOp => "and_op"
  | compareOp => "compare_op"
  | addOp => "add_op"
  | mulOp => "mul_op"
  | unary => "unary"
  | unaryOp => "unary_op"
  | postfixed => "postfix"
  | subscript => "subscript"
  | sliceSep => "slice_sep"
  | methodCall => "method_call"
  | callArgs => "call_args"
  | callArg => "call_arg"
  | primary => "primary"
  | blob => "blob"
  | float => "float"
  | integer => "integer"
  | string => "string"
  | list => "list"
  | dict => "dict"
  | dictEntry => "dict_entry"
  | literalDict => "literal_dict"
  | literalDictEntry => "literal_dict_entry"
  | literalDictKey => "literal_dict_key"
  | lambdaExpr => "lambda_expr"
  | lambda => "lambda"
  | lambdaParams => "lambda_params"
  | lambdaParam => "lambda_param"
  | option => "option"
  | optionScope => "option_scope"
  | optionName => "option_name"
  | envVariable => "env_variable"
  | envName => "env_name"
  | register => "register"
  | functionCall => "function_call"
  | variableRef => "variable"
  | scope => "scope"
  | functionName => "function_name"
  | variableName => "variable_name"
  | scopedName => "scoped_name"

/-- What the nodes of a rule are to a reader of the tree. -/
def tag : Rule → Tag
  | endOfInput => .endOfInput
  | expression => .root
  | expr => .conditional
  | coalesce => .coalesce
  | ternaryThen => .ternaryThen
  | logicalOr => .logicalOr
  | logicalAnd => .logicalAnd
  | comparison => .comparison
  | additive => .additive
  | multiplicative => .multiplicative
  | orOp | andOp | compareOp | addOp | mulOp | unaryOp => .operator
  | unary => .unary
  | postfixed => .postfixed
  | subscript => .subscript
  | sliceSep => .sliceSeparator
  | methodCall => .methodCall
  | callArgs => .callArgs
  | callArg => .callArg
  | primary => .primary
  | blob => .blob
  | float => .float
  | integer => .integer
  | string => .string
  | list => .list
  | dict => .dict
  | dictEntry => .dictEntry
  | literalDict => .literalDict
  | literalDictEntry => .literalDictEntry
  | literalDictKey => .literalDictKey
  | lambdaExpr => .lambdaExpr
  | lambda => .lambda
  | lambdaParams => .lambdaParams
  | option => .optionRef
  | envVariable => .envVariable
  | register => .register
  | functionCall => .functionCall
  | variableRef => .variableRef
  | scope | optionScope => .scope
  | functionName | variableName | scopedName | optionName | envName | lambdaParam => .name

/-- The list of rules lacks none. -/
theorem mem_all (rule : Rule) : rule ∈ all := by
  cases rule <;> decide

end Rule

end Vimscript
