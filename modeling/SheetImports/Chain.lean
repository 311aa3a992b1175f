import SheetImports.Strategy.Basic

/-!
# Chains of strategies

A chain tries its strategies in order. The first one that finds a stylesheet or meets an error
decides, and what a run can open has finitely many keys.
-/

namespace SheetImports

/-- Strategies in the order in which they are tried. -/
abbrev Chain := List Strategy

namespace Chain

/-- The chain with one more strategy, tried last. -/
def add (chain : Chain) (strategy : Strategy) : Chain := chain ++ [strategy]

/-- The strategies as resolvers. -/
def resolvers (chain : Chain) : List Resolver := chain.map Strategy.toResolver

/-- The stylesheet that a chain finds for an import. -/
def resolve (store : Store) (parent : Parent) (identifier : Text) (chain : Chain) : Lookup :=
  Resolver.resolveFirst store parent identifier chain.resolvers

/-- The uris that a chain tries for an import, in order. -/
def candidates (chain : Chain) (parent : Parent) (identifier : Text) : List Text :=
  Resolver.uris chain.resolvers parent identifier

/-- The uris of all stylesheets that a chain holds outside the file system. -/
def holdings (chain : Chain) : List Text := chain.flatMap Strategy.holdings

/-! ## Keys -/

/-- At least as many as the keys of the stylesheets that a chain finds. -/
def keyBound (chain : Chain) (store : Store) : Nat := store.keyBound + chain.holdings.length

theorem exists_openUri_of_resolve {chain : Chain} {store : Store} {parent : Parent}
    {identifier : Text} {source : Source}
    (h : (resolve store parent identifier chain).outcome = .ok (some source)) :
    ∃ strategy ∈ chain, strategy.openUri store source.uri = .ok (some source.stream) := by
  obtain ⟨resolver, hresolver, hopen⟩ := Resolver.exists_openUri_of_resolveFirst h
  obtain ⟨strategy, hstrategy, rfl⟩ := List.mem_map.1 hresolver
  exact ⟨strategy, hstrategy, hopen⟩

/-- The stylesheets that a chain finds have no more keys than `keyBound`. -/
theorem exists_keys (chain : Chain) (store : Store) :
    ∃ keys : List Text, keys.length ≤ chain.keyBound store ∧
      ∀ {parent : Parent} {identifier : Text} {source : Source},
        (resolve store parent identifier chain).outcome = .ok (some source) →
          store.key source.uri ∈ keys := by
  obtain ⟨keys, hlength, hkeys⟩ := store.bounded
  refine ⟨keys ++ chain.holdings.map store.key, ?_, fun {parent} {identifier} {source} h => ?_⟩
  · rw [List.length_append, List.length_map, keyBound]
    omega
  · obtain ⟨strategy, hstrategy, hopen⟩ := exists_openUri_of_resolve h
    rcases strategy.mem_holdings hopen with hheld | ⟨content, hlook⟩
    · refine List.mem_append_right _ (List.mem_map_of_mem ?_)
      exact List.mem_flatMap.2 ⟨strategy, hstrategy, hheld⟩
    · exact List.mem_append_left _ (hkeys hlook)

end Chain

end SheetImports
