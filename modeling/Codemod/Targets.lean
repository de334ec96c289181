import Codemod.Path

/-!
# Targets

The files that a run visits when none are named, and targets as seen from a
root directory.
-/

namespace Codemod.Targets

/-- The files of the migration, from the root of the application. -/
def builtIn : List String := [
  "tests/e2e/accessibility.test.ts",
  "tests/e2e/command-menu.test.ts",
  "tests/e2e/dashboard.test.ts",
  "tests/e2e/file-operations.test.ts",
  "tests/e2e/mobile-responsiveness.test.ts",
  "tests/e2e/notes-crud.test.ts",
  "tests/e2e/notifications.test.ts",
  "tests/e2e/organization-invitations.test.ts",
  "tests/e2e/organization-management.test.ts",
  "tests/e2e/search-functionality.test.ts",
  "tests/e2e/theme-switching.test.ts"
]

/-- The targets as seen from a root directory. -/
def fromRoot (root : String) (targets : List String) : List String :=
  targets.map (Path.join root)

end Codemod.Targets
