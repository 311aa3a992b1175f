import SheetImports.Chain
import SheetImports.Tree.Basic

/-!
# Following imports

`follow` builds the import tree of an entry stylesheet. Each directive is looked up from the
stylesheet that holds it, and a stylesheet that is found for the first time is read and followed in
turn, up to the depth limit. What has been found is remembered by its key (`Store.key`), so that a
file is followed once, whatever links and spellings lead to it.

A level below another one stands in a stylesheet with a new key, and a chain can open only finitely
many keys (`Chain.exists_keys`). So one level more than that is enough for a run without limit.
-/

namespace SheetImports

/-- How imports are followed. -/
structure FollowOptions where
  /-- The deepest level that is shown; without it every level is. -/
  maxDepth : Option Nat := none
  /-- Whether nodes list the candidates of their imports. -/
  showCandidates : Bool := false
  deriving DecidableEq, Repr

/-- What following a list of directives gives. -/
structure Expansion where
  nodes : List ImportNode
  /-- The keys of the stylesheets found so far. -/
  seen : List Text
  events : List Event

namespace Follow

/-- Whether stylesheets found at a depth are left unread. -/
def atLimit (options : FollowOptions) (depth : Nat) : Bool := options.maxDepth.any (· ≤ depth)

/-- What becomes of one directive at a depth. The way to follow a stylesheet, given its uri and its
text, is `descend`. -/
def visit (chain : Chain) (store : Store) (options : FollowOptions)
    (descend : Text → Text → List Text → Expansion) (depth : Nat) (parent : Parent)
    (directive : Directive) (seen : List Text) : ImportNode × List Text × List Event :=
  if directive.kind = .plainCss then (⟨directive, .plainCss, [], []⟩, seen, [])
  else
    let candidates :=
      if options.showCandidates then chain.candidates parent directive.target else []
    let lookup := chain.resolve store parent directive.target
    match lookup.outcome with
    | .ok none => (⟨directive, .notFound, candidates, []⟩, seen, lookup.events)
    | .error error =>
      (⟨directive, .failed error.message, candidates, []⟩, seen,
        lookup.events ++ [.lookupFailed directive.target error])
    | .ok (some source) =>
      let key := store.key source.uri
      if key ∈ seen then
        (⟨directive, .revisited source.uri, candidates, []⟩, seen, lookup.events)
      else if atLimit options depth then
        (⟨directive, .resolved source.uri, candidates, []⟩, key :: seen, lookup.events)
      else
        match source.readText with
        | .error error =>
          (⟨directive, .failed error.message, candidates, []⟩, key :: seen,
            lookup.events ++ [.readFailed error])
        | .ok text =>
          let below := descend source.uri text (key :: seen)
          (⟨directive, .resolved source.uri, candidates, below.nodes⟩, below.seen,
            lookup.events ++ below.events)

/-- What becomes of the directives of one stylesheet, one after the other. -/
def visitAll (chain : Chain) (store : Store) (options : FollowOptions)
    (descend : Text → Text → List Text → Expansion) (depth : Nat) (parent : Parent) :
    List Directive → List Text → Expansion
  | [], seen => ⟨[], seen, []⟩
  | directive :: directives, seen =>
    let (node, seen, events) := visit chain store options descend depth parent directive seen
    let others := visitAll chain store options descend depth parent directives seen
    ⟨node :: others.nodes, others.seen, events ++ others.events⟩

/-- The imports of the stylesheet at `uri`, followed through at most `levels` levels. -/
def expand (chain : Chain) (store : Store) (options : FollowOptions) :
    (levels depth : Nat) → (uri text : Text) → (seen : List Text) → Expansion
  | 0, _, _, _, seen => ⟨[], seen, []⟩
  | levels + 1, depth, uri, text, seen =>
    visitAll chain store options (expand chain store options levels (depth + 1)) depth ⟨uri⟩
      (Stylesheet.imports text) seen

end Follow

/-- The import tree of an entry stylesheet with a given text, and what was reported. -/
def follow (chain : Chain) (store : Store) (options : FollowOptions) (entry text : Text) :
    ImportTree × List Event :=
  let levels := chain.keyBound store + 1
  let expansion := Follow.expand chain store options levels 1 entry text [store.key entry]
  (⟨entry, expansion.nodes⟩, expansion.events)

end SheetImports
