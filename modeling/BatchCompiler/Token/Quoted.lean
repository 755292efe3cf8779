/-
# BatchCompiler.Token.Quoted -- string literals

A string literal stands between double quotes. Inside it a backslash takes the next character out
of its usual role: an `n` becomes a line feed, a `t` a tab, and every other character itself.
-/

namespace BatchCompiler.Quoted

/-- Resolves backslash escapes. A backslash with nothing behind it stands for itself. -/
def unescape : List Char → List Char
  | [] => []
  | ['\\'] => ['\\']
  | '\\' :: 'n' :: cs => '\n' :: unescape cs
  | '\\' :: 't' :: cs => '\t' :: unescape cs
  | '\\' :: c :: cs => c :: unescape cs
  | c :: cs => c :: unescape cs

/-- The text between a quote at the start and a quote at the end, or all of it if one is missing. -/
def unquote : List Char → List Char
  | '"' :: cs => if cs.getLast? = some '"' then cs.dropLast else '"' :: cs
  | cs => cs

/-- The text that a literal denotes. -/
def decode (literal : String) : String :=
  String.ofList (unescape (unquote literal.toList))

end BatchCompiler.Quoted
