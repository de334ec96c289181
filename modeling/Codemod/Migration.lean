import Codemod.Rule.Template
import Codemod.Shape

/-!
# The fixture migration

Five rules move end-to-end tests from fixtures written in place to the
organization helpers of `#tests/test-utils.ts`: two replace the imports, two
replace the creation of an organization with one or two users, and one splits
an assertion that was written as an alternative.
-/

namespace Codemod.Migration

/-! ## Code that is looked for and code that is put in its place -/

namespace Code

/-- The old import of generated data. -/
def faker : String := "import \x7b faker \x7d from '@faker-js/faker'"

/-- The old import of the database. -/
def prisma : String := "import \x7b prisma \x7d from '#app/utils/db.server.ts'"

/-- The import of the test runner, which stays. -/
def playwright : String :=
  "import \x7b expect, test \x7d from '#tests/playwright-utils.ts'"

/-- The new import of the helpers. -/
def helpers : String :=
  "import \x7b createTestOrganization, createTestOrganizationWithMultipleUsers \x7d"
    ++ " from '#tests/test-utils.ts'"

/-- The creation of an organization, from the equals sign up to its members. -/
def organization : Shape :=
  .code "= await prisma.organization.create(\x7b data: \x7b name: faker.company.name(),"
    ++ .code "slug: faker.helpers.slugify(faker.company.name()).toLowerCase(),"
    ++ .code "description: faker.company.catchPhrase(), users: \x7b create:"

end Code

/-! ## What the slots capture -/

namespace Slot

/-- An identifier. -/
def name : String := "[A-Za-z_$][\\w$]*"

/-- Identifiers joined by dots. -/
def chain : String := "[A-Za-z_$][\\w$]*(?:\\.[A-Za-z_$][\\w$]*)*"

/-- The subject of an assertion, with parentheses one level deep. -/
def subject : String := "(?:[^()]|\\([^()]*\\))+"

end Slot

/-- The further lines of an assertion that did not start its line are indented
by this. -/
def innerIndent : String := "\t\t"

/-! ## What the rules look for -/

namespace Old

/-- All three old imports in a row. -/
def threeImports : Shape :=
  .code Code.faker ++ .code Code.prisma ++ .code Code.playwright

/-- The first two old imports alone. -/
def twoImports : Shape :=
  .code Code.faker ++ .code Code.prisma

/-- An organization with one user, an admin. -/
def oneUser : Shape :=
  .code "const" ++ .slot "binding" Slot.name ++ Code.organization
    ++ .code "\x7b userId:" ++ .slot "user" Slot.chain
    ++ .code ", organizationRoleId: 'org_role_admin' \x7d \x7d \x7d \x7d)"

/-- An organization with two users, an admin and a member. -/
def twoUsers : Shape :=
  .code "const" ++ .slot "binding" Slot.name ++ Code.organization
    ++ .code "[ \x7b userId:" ++ .slot "first_user" Slot.chain
    ++ .code ", organizationRoleId:" ++ .slot "first_role" "'org_role_admin'"
    ++ .code "\x7d, \x7b userId:" ++ .slot "second_user" Slot.chain
    ++ .code ", organizationRoleId:" ++ .slot "second_role" "'org_role_member'"
    ++ .code "\x7d ] \x7d \x7d \x7d)"

/-- The assertion of a label or of visibility. -/
def labelOrVisible : Shape :=
  .indent "indent" ++ .code "await expect(" ++ .slot "labelled" Slot.subject
    ++ .code ").toHaveAttribute('aria-label')" ++ .code ".or(expect("
    ++ .slot "visible" Slot.subject ++ .code ").toBeVisible())"

end Old

/-! ## What they put in its place -/

namespace New

/-- The import of the test runner, and the import of the helpers on a line of
its own. -/
def threeImports : Template :=
  [.text Code.playwright, .lineEnding, .text Code.helpers]

/-- The import of the helpers. -/
def twoImports : Template := [.text Code.helpers]

/-- The helper that creates an organization with one user. -/
def oneUser : Template := [
  .text "const ", .group "binding", .text " = await createTestOrganization(",
  .group "user", .text ", 'admin')"]

/-- The helper that creates an organization with several users. -/
def twoUsers : Template := [
  .text "const ", .group "binding",
  .text " = await createTestOrganizationWithMultipleUsers([\x7b userId: ",
  .group "first_user", .text ", role: '", .role "first_role",
  .text "' \x7d, \x7b userId: ", .group "second_user",
  .text ", role: '", .role "second_role", .text "' \x7d])"]

/-- Two queries and one assertion, each on a line with the indentation of the
old one. -/
def labelOrVisible : Template := [
  .optional "indent" "", .text "const hasAriaLabel = await ", .group "labelled",
  .text ".getAttribute('aria-label')", .lineEnding,
  .optional "indent" innerIndent, .text "const hasLabel = await ",
  .group "visible", .text ".isVisible()", .lineEnding,
  .optional "indent" innerIndent,
  .text "expect(hasAriaLabel || hasLabel).toBeTruthy()"]

end New

/-! ## The rules -/

/-- All three old imports in a row become the two new ones. -/
def threeImports : Except Error Rule :=
  Rule.compile "consolidate-imports" Old.threeImports.pattern .plain
    New.threeImports.produce

/-- The first two old imports alone become the import of the helpers. This rule
comes after `threeImports`: before it, it would leave the third import below
the new one. -/
def twoImports : Except Error Rule :=
  Rule.compile "consolidate-imports-fallback" Old.twoImports.pattern .plain
    New.twoImports.produce

/-- The creation of an organization with one user becomes a call of a helper. -/
def oneUser : Except Error Rule :=
  Rule.compile "single-user-organization" Old.oneUser.pattern .structural
    New.oneUser.produce

/-- The creation of an organization with two users becomes a call of a
helper. -/
def twoUsers : Except Error Rule :=
  Rule.compile "multi-user-organization" Old.twoUsers.pattern .structural
    New.twoUsers.produce

/-- The assertion of a label or of visibility becomes two queries and one
assertion. -/
def labelOrVisible : Except Error Rule :=
  Rule.compile "aria-label-or-visible" Old.labelOrVisible.pattern
    { multiLine := true }
    New.labelOrVisible.produce

/-- The rules of the migration, in the order in which they are applied. -/
def rules : Except Error Rules :=
  [threeImports, twoImports, oneUser, twoUsers, labelOrVisible].mapM id

end Codemod.Migration
