import SheetImports.Resolver

/-!
# Strategies

A strategy is a resolver that holds finitely many stylesheets of its own; all others that it opens
are found in the file system. So what a run can open has finitely many keys, whatever the
stylesheets say.
-/

namespace SheetImports

/-- A resolver that holds finitely many stylesheets. -/
structure Strategy extends Resolver where
  /-- The uris of the stylesheets that are not in the file system. -/
  holdings : List Text
  /-- A stylesheet that is opened is held or is found in the file system. -/
  mem_holdings : ∀ {store : Store} {uri : Text} {stream : Stream},
    openUri store uri = .ok (some stream) →
      uri ∈ holdings ∨ ∃ content, store.look uri = .ok content

end SheetImports
