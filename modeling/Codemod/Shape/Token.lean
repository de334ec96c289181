import Codemod.Pattern.Escape
import Codemod.Text.White
import Codemod.Text.WordChar

/-!
# Tokens of a code template

A template is cut into words, quoted literals and single signs; white space
between them is dropped. The cut is made one character at a time: `Cut.feed`
says which tokens a character finishes and what is still open after it.
-/

namespace Codemod

/-- A token with its raw text. -/
inductive Token where
  | word (text : List Char)
  | quoted (text : List Char)
  | sign (c : Char)
  deriving Repr, DecidableEq

namespace Token

/-- The text of the token in the template. -/
def text : Token → List Char
  | .word cs => cs
  | .quoted cs => cs
  | .sign c => [c]

/-- The pattern of the token. A word must not run on into the text around it. -/
def pattern : Token → List Char
  | .word cs => ['\\', 'b'] ++ Pattern.escape cs ++ ['\\', 'b']
  | .quoted cs => Pattern.escape cs
  | .sign c => Pattern.escape [c]

/-- A character that opens a literal, which the same character closes. -/
def isQuote (c : Char) : Bool :=
  c == '\'' || c == '"' || c == '\x60'

/-- The token that is still open, its text last character first. -/
inductive Cut where
  | none
  | word (rev : List Char)
  | quoted (quote : Char) (rev : List Char)

namespace Cut

/-- A character that starts something new. -/
def start (c : Char) : List Token × Cut :=
  if Text.isWhite c then ([], .none)
  else if isQuote c then ([], .quoted c [c])
  else if Text.isAsciiWord c then ([], .word [c])
  else ([.sign c], .none)

/-- The tokens that a character finishes, and what is open after it. -/
def feed : Cut → Char → List Token × Cut
  | .none, c => start c
  | .word rev, c =>
    if Text.isAsciiWord c then ([], .word (c :: rev))
    else
      let (done, cut) := start c
      (.word rev.reverse :: done, cut)
  | .quoted q rev, c =>
    if c == q then ([.quoted (c :: rev).reverse], .none)
      else ([], .quoted q (c :: rev))

/-- The token that the end of the template finishes. -/
def flush : Cut → List Token
  | .none => []
  | .word rev => [.word rev.reverse]
  | .quoted _ rev => [.quoted rev.reverse]

/-- The tokens of the rest of a template. -/
def tokens : Cut → List Char → List Token
  | cut, [] => cut.flush
  | cut, c :: cs =>
    let (done, next) := cut.feed c
    done ++ next.tokens cs

end Cut

/-- The tokens of a template. A literal without a closing quote reaches to the
end. -/
def ofTemplate (template : List Char) : List Token :=
  Cut.none.tokens template

end Token

end Codemod
