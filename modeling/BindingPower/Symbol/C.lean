/-! The symbols of the C grammar: what its tokens are, and the markers that only trees carry. -/
namespace BindingPower

inductive CSymbol
  | ident | intConst | floatConst | charConst | string | kwStruct | kwUnion | kwEnum | kwConst
  | kwVolatile | kwVoid | kwChar | kwShort | kwInt | kwLong | kwFloat | kwDouble | kwSigned
  | kwUnsigned | kwAuto | kwRegister | kwStatic | kwExtern | kwTypedef | increment | decrement
  | kwSizeof | star | slash | percent | plus | minus | shiftLeft | shiftRight | less | greater
  | lessEq | greaterEq | equals | notEquals | ampersand | caret | bar | andAnd | orOr | question
  | dot | arrow | tilde | bang | assign | starAssign | slashAssign | percentAssign | plusAssign
  | minusAssign | shiftLeftAssign | shiftRightAssign | ampersandAssign | caretAssign | barAssign
  | leftParen | rightParen | leftBracket | rightBracket | leftBrace | rightBrace | semicolon
  | comma | colon | kwCase | kwDefault | kwIf | kwElse | kwWhile | kwGoto | kwContinue | kwBreak
  | kwReturn | specifiers | declaration | conditional | stepped | call | index | body | block
  deriving DecidableEq, Repr

namespace CSymbol

/-- The name under which a symbol is printed. -/
def name : CSymbol → String
  | .ident => "IDENT" | .intConst => "INT_CONST" | .floatConst => "FLT_CONST"
  | .charConst => "CHR_CONST" | .string => "STRING" | .kwStruct => "STRUCT" | .kwUnion => "UNION"
  | .kwEnum => "ENUM" | .kwConst => "CONST" | .kwVolatile => "VOLATILE" | .kwVoid => "VOID"
  | .kwChar => "CHAR" | .kwShort => "SHORT" | .kwInt => "INT" | .kwLong => "LONG"
  | .kwFloat => "FLOAT" | .kwDouble => "DOUBLE" | .kwSigned => "SIGNED"
  | .kwUnsigned => "UNSIGNED" | .kwAuto => "AUTO" | .kwRegister => "REGISTER"
  | .kwStatic => "STATIC" | .kwExtern => "EXTERN" | .kwTypedef => "TYPEDEF" | .increment => "INC"
  | .decrement => "DEC" | .kwSizeof => "SIZEOF" | .star => "MUL" | .slash => "DIV"
  | .percent => "MOD" | .plus => "ADD" | .minus => "SUB" | .shiftLeft => "SHL"
  | .shiftRight => "SHR" | .less => "LT" | .greater => "GT" | .lessEq => "LTE"
  | .greaterEq => "GTE" | .equals => "EQS" | .notEquals => "NEQS" | .ampersand => "AND"
  | .caret => "XOR" | .bar => "INCL_OR" | .andAnd => "LOG_AND" | .orOr => "LOG_OR"
  | .question => "QUESTION" | .dot => "DOT" | .arrow => "DEREF" | .tilde => "BIT_NEG"
  | .bang => "NOT" | .assign => "EQUAL" | .starAssign => "MUL_EQ" | .slashAssign => "DIV_EQ"
  | .percentAssign => "MOD_EQ" | .plusAssign => "ADD_EQ" | .minusAssign => "SUB_EQ"
  | .shiftLeftAssign => "SHL_EQ" | .shiftRightAssign => "SHR_EQ" | .ampersandAssign => "AND_EQ"
  | .caretAssign => "XOR_EQ" | .barAssign => "OR_EQ" | .leftParen => "LPAREN"
  | .rightParen => "RPAREN" | .leftBracket => "LBRACKET" | .rightBracket => "RBRACKET"
  | .leftBrace => "LBRACE" | .rightBrace => "RBRACE" | .semicolon => "SEMICOLON"
  | .comma => "COMMA" | .colon => "COLON" | .kwCase => "CASE" | .kwDefault => "DEFAULT"
  | .kwIf => "IF" | .kwElse => "ELSE" | .kwWhile => "WHILE" | .kwGoto => "GOTO"
  | .kwContinue => "CONTINUE" | .kwBreak => "BREAK" | .kwReturn => "RETURN"
  | .specifiers => "DECL_SPECS" | .declaration => "DECLARATION" | .conditional => "TERNARY"
  | .stepped => "POSTFIX" | .call => "CALL" | .index => "INDEX" | .body => "BODY"
  | .block => "BLOCK"

/-- Every symbol, in the order of declaration. -/
def all : List CSymbol := [
  .ident, .intConst, .floatConst, .charConst, .string, .kwStruct, .kwUnion, .kwEnum, .kwConst,
  .kwVolatile, .kwVoid, .kwChar, .kwShort, .kwInt, .kwLong, .kwFloat, .kwDouble, .kwSigned,
  .kwUnsigned, .kwAuto, .kwRegister, .kwStatic, .kwExtern, .kwTypedef, .increment, .decrement,
  .kwSizeof, .star, .slash, .percent, .plus, .minus, .shiftLeft, .shiftRight, .less, .greater,
  .lessEq, .greaterEq, .equals, .notEquals, .ampersand, .caret, .bar, .andAnd, .orOr, .question,
  .dot, .arrow, .tilde, .bang, .assign, .starAssign, .slashAssign, .percentAssign, .plusAssign,
  .minusAssign, .shiftLeftAssign, .shiftRightAssign, .ampersandAssign, .caretAssign, .barAssign,
  .leftParen, .rightParen, .leftBracket, .rightBracket, .leftBrace, .rightBrace, .semicolon,
  .comma, .colon, .kwCase, .kwDefault, .kwIf, .kwElse, .kwWhile, .kwGoto, .kwContinue, .kwBreak,
  .kwReturn, .specifiers, .declaration, .conditional, .stepped, .call, .index, .body, .block]

def ofName? (name : String) : Option CSymbol := all.find? (·.name == name)

def keywords : List (String × CSymbol) := [
  ("struct", .kwStruct), ("union", .kwUnion), ("enum", .kwEnum), ("const", .kwConst),
  ("volatile", .kwVolatile), ("void", .kwVoid), ("char", .kwChar), ("short", .kwShort),
  ("int", .kwInt), ("long", .kwLong), ("float", .kwFloat), ("double", .kwDouble),
  ("signed", .kwSigned), ("unsigned", .kwUnsigned), ("auto", .kwAuto), ("register", .kwRegister),
  ("static", .kwStatic), ("extern", .kwExtern), ("typedef", .kwTypedef), ("sizeof", .kwSizeof),
  ("case", .kwCase), ("default", .kwDefault), ("if", .kwIf), ("else", .kwElse),
  ("while", .kwWhile), ("goto", .kwGoto), ("continue", .kwContinue), ("break", .kwBreak),
  ("return", .kwReturn)]

/-- Operators and punctuation, the longer spellings first. -/
def operators : List (String × CSymbol) := [
  ("<<=", .shiftLeftAssign), (">>=", .shiftRightAssign), ("->", .arrow), ("++", .increment),
  ("--", .decrement), ("<<", .shiftLeft), (">>", .shiftRight), ("<=", .lessEq),
  (">=", .greaterEq), ("==", .equals), ("!=", .notEquals), ("&&", .andAnd), ("||", .orOr),
  ("*=", .starAssign), ("/=", .slashAssign), ("%=", .percentAssign), ("+=", .plusAssign),
  ("-=", .minusAssign), ("&=", .ampersandAssign), ("^=", .caretAssign), ("|=", .barAssign),
  ("*", .star), ("/", .slash), ("%", .percent), ("+", .plus), ("-", .minus), ("<", .less),
  (">", .greater), ("&", .ampersand), ("^", .caret), ("|", .bar), ("?", .question), (".", .dot),
  ("~", .tilde), ("!", .bang), ("=", .assign), ("(", .leftParen), (")", .rightParen),
  ("[", .leftBracket), ("]", .rightBracket), ("\x7b", .leftBrace), ("\x7d", .rightBrace),
  (";", .semicolon), (",", .comma), (":", .colon)]

/-- How a symbol is written in a program; one that is not written has its name in lower case. -/
def spelling (s : CSymbol) : String :=
  match (operators ++ keywords).find? (·.2 == s) with
  | some (text, _) => text
  | none => String.ofList (s.name.toList.map Char.toLower)

end CSymbol

end BindingPower
