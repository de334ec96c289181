/-!
# Role names

Stored roles are called `org_role_admin`, often in quotes; helpers take the
bare name `admin`.
-/

namespace Codemod

/-- What the identifier of a stored role starts with. -/
def roleMarker : List Char := "org_role_".toList

/-- A quote around a role. -/
def isRoleQuote (c : Char) : Bool :=
  c == '\'' || c == '"'

/-- A text without the quotes at its two ends. -/
def unquoted (cs : List Char) : List Char :=
  ((cs.dropWhile isRoleQuote).reverse.dropWhile isRoleQuote).reverse

/-- The bare name of a role: quotes are taken off, and then one marker. -/
def bareRole (id : List Char) : List Char :=
  let name := unquoted id
  if roleMarker.isPrefixOf name then name.drop roleMarker.length else name

end Codemod
