import Stackable.Syntax.Decl

/-!
# Labels

The names under which tokens, operators and kinds appear in dumps.
-/

set_option autoImplicit false

namespace Stackable

def capitalized (s : String) : String :=
  match s.toList with
  | c :: cs => String.ofList (c.toUpper :: cs)
  | [] => ""

def Keyword.label (k : Keyword) : String :=
  match k with
  | .boolKw => "BoolKw"
  | .intKw => "IntKw"
  | .charKw => "CharKw"
  | .stringKw => "StringKw"
  | .sbyteKw => "SByte"
  | .ushortKw => "UShort"
  | .uintKw => "UInt"
  | .ulongKw => "ULong"
  | _ => capitalized k.text

def Punct.label : Punct → String
  | .questionQuestionEq => "QuestionQuestionEq"
  | .ltLtEq => "LtLtEq"
  | .gtGtEq => "GtGtEq"
  | .eqEq => "EqEq"
  | .bangEq => "BangEq"
  | .ltEq => "LtEq"
  | .gtEq => "GtEq"
  | .ampAmp => "AmpAmp"
  | .pipePipe => "PipePipe"
  | .questionQuestion => "QuestionQuestion"
  | .questionDot => "QuestionDot"
  | .plusPlus => "PlusPlus"
  | .minusMinus => "MinusMinus"
  | .arrow => "Arrow"
  | .fatArrow => "FatArrow"
  | .ltLt => "LtLt"
  | .gtGt => "GtGt"
  | .colonColon => "ColonColon"
  | .plusEq => "PlusEq"
  | .minusEq => "MinusEq"
  | .starEq => "StarEq"
  | .slashEq => "SlashEq"
  | .percentEq => "PercentEq"
  | .ampEq => "AmpEq"
  | .pipeEq => "PipeEq"
  | .caretEq => "CaretEq"
  | .plus => "Plus"
  | .minus => "Minus"
  | .star => "Star"
  | .slash => "Slash"
  | .percent => "Percent"
  | .eq => "Eq"
  | .lt => "Lt"
  | .gt => "Gt"
  | .bang => "Bang"
  | .question => "Question"
  | .dot => "Dot"
  | .amp => "Amp"
  | .pipe => "Pipe"
  | .caret => "Caret"
  | .tilde => "Tilde"
  | .lBrace => "LBrace"
  | .rBrace => "RBrace"
  | .lParen => "LParen"
  | .rParen => "RParen"
  | .lBracket => "LBracket"
  | .rBracket => "RBracket"
  | .colon => "Colon"
  | .semi => "Semi"
  | .comma => "Comma"

def IntSuffix.label : IntSuffix → String
  | .u => "U"
  | .l => "L"
  | .ul => "UL"

def RealSuffix.label : RealSuffix → String
  | .f => "F"
  | .d => "D"
  | .m => "M"

def TokenKind.label : TokenKind → String
  | .int _ _ => "Int"
  | .real _ _ => "Real"
  | .string _ => "String"
  | .char _ => "Char"
  | .bool _ => "Bool"
  | .ident _ => "Ident"
  | .keyword k => k.label
  | .punct p => p.label
  | .eof => "Eof"

def PredefinedType.label (p : PredefinedType) : String :=
  match p with
  | .sbyte => "SByte"
  | .ushort => "UShort"
  | .uint => "UInt"
  | .ulong => "ULong"
  | _ => capitalized p.keyword.text

def Modifier.label : Modifier → String
  | .publicMod => "Public"
  | .privateMod => "Private"
  | .protectedMod => "Protected"
  | .internalMod => "Internal"
  | .staticMod => "Static"
  | .constMod => "Const"
  | .readonlyMod => "Readonly"
  | .unsafeMod => "Unsafe"
  | .abstractMod => "Abstract"
  | .virtualMod => "Virtual"
  | .overrideMod => "Override"
  | .sealedMod => "Sealed"
  | .externMod => "Extern"
  | .volatileMod => "Volatile"
  | .newMod => "New"
  | .asyncMod => "Async"
  | .partialMod => "Partial"

def BinOp.label : BinOp → String
  | .add => "Add"
  | .sub => "Sub"
  | .mul => "Mul"
  | .div => "Div"
  | .mod => "Mod"
  | .eq => "Eq"
  | .ne => "Ne"
  | .lt => "Lt"
  | .gt => "Gt"
  | .le => "Le"
  | .ge => "Ge"
  | .and => "And"
  | .or => "Or"
  | .bitAnd => "BitAnd"
  | .bitOr => "BitOr"
  | .bitXor => "BitXor"
  | .shl => "Shl"
  | .shr => "Shr"
  | .coalesce => "Coalesce"

def UnaryOp.label : UnaryOp → String
  | .neg => "Neg"
  | .plus => "Plus"
  | .not => "Not"
  | .bitNot => "BitNot"
  | .preInc => "PreInc"
  | .preDec => "PreDec"
  | .addressOf => "AddressOf"
  | .deref => "Deref"
  | .await => "Await"

def PostfixOp.label : PostfixOp → String
  | .inc => "Inc"
  | .dec => "Dec"

def AssignOp.label : AssignOp → String
  | .assign => "Assign"
  | .add => "Add"
  | .sub => "Sub"
  | .mul => "Mul"
  | .div => "Div"
  | .mod => "Mod"
  | .bitAnd => "BitAnd"
  | .bitOr => "BitOr"
  | .bitXor => "BitXor"
  | .shl => "Shl"
  | .shr => "Shr"
  | .coalesce => "Coalesce"

def ArgModifier.label : ArgModifier → String
  | .byRef => "Ref"
  | .byOut => "Out"
  | .byIn => "In"

def ParamModifier.label : ParamModifier → String
  | .byRef => "Ref"
  | .byOut => "Out"
  | .byIn => "In"
  | .paramArray => "Params"
  | .receiver => "This"

def TypeKind.label : TypeKind → String
  | .classType => "Class"
  | .structType => "Struct"
  | .interfaceType => "Interface"
  | .recordType => "Record"
  | .enumType => "Enum"

def AccessorKind.label : AccessorKind → String
  | .get => "Get"
  | .set => "Set"
  | .init => "Init"

def ExprKind.label {ε : Type} : ExprKind ε → String
  | .int .. => "Int"
  | .real .. => "Real"
  | .string _ => "String"
  | .char _ => "Char"
  | .bool _ => "Bool"
  | .null => "Null"
  | .ident _ => "Ident"
  | .this => "This"
  | .base => "Base"
  | .member .. => "Member"
  | .invocation .. => "Invocation"
  | .elementAccess .. => "ElementAccess"
  | .objectCreation .. => "ObjectCreation"
  | .arrayCreation .. => "ArrayCreation"
  | .implicitArrayCreation _ => "ImplicitArrayCreation"
  | .stackAlloc .. => "StackAlloc"
  | .arrayInitializer _ => "ArrayInitializer"
  | .assign .. => "Assign"
  | .conditional .. => "Conditional"
  | .binary .. => "Binary"
  | .unary .. => "Unary"
  | .suffixed .. => "Postfix"
  | .cast .. => "Cast"
  | .isType .. => "Is"
  | .asType .. => "As"
  | .typeOf _ => "TypeOf"
  | .sizeOfType _ => "SizeOf"
  | .defaultOf _ => "Default"
  | .paren _ => "Paren"

def StmtKind.label {σ : Type} : StmtKind σ → String
  | .block _ => "Block"
  | .localDecl _ => "Local"
  | .expr _ => "Expr"
  | .ret _ => "Return"
  | .ite .. => "If"
  | .forLoop .. => "For"
  | .forEach .. => "ForEach"
  | .whileLoop .. => "While"
  | .doWhile .. => "Do"
  | .switch .. => "Switch"
  | .breakStmt => "Break"
  | .continueStmt => "Continue"
  | .throwStmt _ => "Throw"
  | .yieldReturn _ => "YieldReturn"
  | .yieldBreak => "YieldBreak"
  | .unsafeBlock _ => "Unsafe"
  | .fixed .. => "Fixed"
  | .usingBlock .. => "Using"
  | .lock .. => "Lock"
  | .tryCatch .. => "Try"
  | .empty => "Empty"

def MemberKind.label {μ : Type} : MemberKind μ → String
  | .field _ => "Field"
  | .method _ => "Method"
  | .constructor _ => "Constructor"
  | .property _ => "Property"
  | .typeDecl _ => "Type"
  | .enumMember _ => "EnumMember"

def DeclKind.label {δ : Type} : DeclKind δ → String
  | .usingDecl _ => "Using"
  | .namespaceDecl _ => "Namespace"
  | .typeDecl _ => "Type"

def TypeRefKind.label {τ : Type} : TypeRefKind τ → String
  | .predefined _ => "Predefined"
  | .named .. => "Named"
  | .array .. => "Array"
  | .pointer _ => "Pointer"
  | .nullable _ => "Nullable"

end Stackable
