import CaretContext.Source

/-!
# Tokens of PHP

A token has a kind, the text it is written as, and the place of that text in the source. Words are
told apart from keywords here, and symbols are taken by the longest spelling that fits.
-/

namespace CaretContext.Php

/-- What a token is. Keywords carry their lower-case spelling, symbols their text. -/
inductive TokenKind where
  /-- Text outside the program. -/
  | inlineText
  | openTag
  | echoTag
  | closeTag
  /-- A dollar sign and a name. -/
  | variable
  | name
  /-- A name with a backslash inside. -/
  | qualifiedName
  /-- A name that begins with a backslash. -/
  | rootedName
  | keyword (word : String)
  | symbol (text : String)
  | cast
  | number
  /-- A quoted string without interpolation. -/
  | string
  /-- A quoted string that the text ends in. -/
  | unclosedString
  /-- Literal text inside a string with interpolation. -/
  | stringPart
  | documentStart
  | documentEnd
deriving DecidableEq, Repr, Inhabited

/-- A token and the place of its text. -/
structure Token where
  kind : TokenKind
  text : String
  span : Span
deriving DecidableEq, Repr, Inhabited

def Token.isSymbol (t : Token) (text : String) : Bool := t.kind = .symbol text

def Token.isKeyword (t : Token) (word : String) : Bool := t.kind = .keyword word

/-- The names of this language's own constants, which act as keywords. -/
def magicConstants : List String :=
  ["__class__", "__dir__", "__file__", "__function__", "__line__", "__method__", "__namespace__",
    "__property__", "__trait__"]

/-- The words with a meaning of their own, in lower case. -/
def keywords : List String :=
  ["abstract", "and", "array", "as", "break", "callable", "case", "catch", "class", "clone",
    "const", "continue", "declare", "default", "die", "do", "echo", "else", "elseif", "empty",
    "enddeclare", "endfor", "endforeach", "endif", "endswitch", "endwhile", "enum", "eval", "exit",
    "extends", "false", "final", "finally", "fn", "for", "foreach", "from", "function", "global",
    "goto", "if", "implements", "include", "include_once", "instanceof", "insteadof", "interface",
    "isset", "list", "match", "namespace", "new", "null", "or", "parent", "print", "private",
    "protected", "public", "readonly", "require", "require_once", "return", "self", "static",
    "switch", "throw", "trait", "true", "try", "unset", "use", "var", "while", "xor", "yield",
    "__halt_compiler"] ++ magicConstants

/-- The symbols, longer spellings before their own beginnings. -/
def symbols : List String :=
  ["<<=", ">>=", "**=", "...", "<=>", "===", "!==", "?->", "??=",
    "!=", "#[", "$\x7b", "%=", "&&", "&=", "**", "*=", "++", "+=", "--", "-=", "->", ".=", "/=", "::",
    "<<", "<=", "<>", "==", "=>", ">=", ">>", "??", "^=", "|=", "||", "|>",
    "!", "$", "%", "&", "(", ")", "*", "+", ",", "-", ".", "/", ":", ";", "<", "=", ">", "?", "@",
    "[", "\\", "]", "^", "\x7b", "|", "\x7d", "~"]

def castTypes : List String :=
  ["int", "integer", "bool", "boolean", "float", "double", "real", "string", "binary", "array",
    "object", "unset", "void"]

def lowerCase (cs : List Char) : String := String.ofList (cs.map Char.toLower)

def wordKind (word : List Char) : TokenKind :=
  if keywords.contains (lowerCase word) then .keyword (lowerCase word) else .name

end CaretContext.Php
