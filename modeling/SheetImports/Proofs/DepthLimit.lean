import SheetImports.Proofs.Reachable

/-!
# What a depth limit hides

A stylesheet that is first met at the limit is shown, but left unread, and where it is met again
nearer to the entry it is not shown again. So a limit can hide what lies within it, and it does so
where a stylesheet that is left unread lies nearer to the entry and imports what nothing else shows
(`follow_within_iff`). A greater limit can hide more (`detour_hidden`).
-/

namespace SheetImports

open Follow ImportNode

variable {chain : Chain} {store : Store} {options : FollowOptions} {entry text : Text}

/-- What can be reached from an entry in at most a number of steps. -/
inductive Within (step : Text → Text → Prop) (entry : Text) : Nat → Text → Prop
  | entry {n : Nat} : Within step entry n entry
  | step {n : Nat} {u v : Text} (h : Within step entry n u) (hstep : step u v) :
    Within step entry (n + 1) v

theorem Within.mono {step : Text → Text → Prop} {entry : Text} {m n : Nat} {uri : Text}
    (h : Within step entry m uri) (hle : m ≤ n) : Within step entry n uri := by
  induction h generalizing n with
  | entry => exact .entry
  | step _ hstep ih =>
    cases n with
    | zero => exact absurd hle (Nat.not_succ_le_zero _)
    | succ n => exact (ih (Nat.le_of_succ_le_succ hle)).step hstep

/-- A stylesheet that is shown at the limit, and whose imports are not followed there. -/
def ImportTree.LeavesUnread (tree : ImportTree) (options : FollowOptions) (uri : Text) : Prop :=
  ∃ p ∈ tree.placements, p.node.outcome = .resolved uri ∧ atLimit options p.depth = true

/-- A stylesheet that is shown is expanded somewhere, or is left unread. -/
theorem ImportTree.expands_or_leavesUnread {tree : ImportTree} (options : FollowOptions)
    {uri : Text} (h : uri ∈ tree.resolved) :
    tree.Expands options uri ∨ tree.LeavesUnread options uri := by
  obtain ⟨p, hp, huri⟩ := ImportTree.mem_resolved.1 h
  cases hlimit : atLimit options p.depth with
  | false => exact Or.inl (Or.inr ⟨p, hp, huri, hlimit⟩)
  | true => exact Or.inr ⟨p, hp, huri, hlimit⟩

/-- The importer of a node lies at most as many steps from the entry as there are nodes above it. -/
theorem within_of_placed {n : Nat} (hn : 1 ≤ n) (hlimit : options.maxDepth = some n)
    {textOf : Text → Text}
    (htexts : (follow chain store options entry text).1.Texts chain store text textOf) :
    ∀ p ∈ (follow chain store options entry text).1.placements,
      p.depth ≤ n ∧ ∃ k, k + 1 = p.depth ∧
        Within (Imports chain store textOf) entry k p.parent := by
  refine ImportTree.forall_placements (fun _ _ => ⟨hn, 0, rfl, .entry⟩) ?_
  rintro q hq ⟨-, k, hk, hwithin⟩ child hchild
  obtain ⟨hdeeper, himports⟩ := imports_place_of_child htexts hq hchild
  have hless : q.depth < n := by
    rw [atLimit, hlimit] at hdeeper
    simpa using hdeeper
  refine ⟨hless, k + 1, ?_, hwithin.step himports⟩
  rw [hk]

/-- Nothing beyond the limit is shown. -/
theorem within_of_resolved {n : Nat} (hn : 1 ≤ n) (hlimit : options.maxDepth = some n)
    {textOf : Text → Text}
    (htexts : (follow chain store options entry text).1.Texts chain store text textOf) {uri : Text}
    (h : uri ∈ (follow chain store options entry text).1.resolved) :
    Within (Imports chain store textOf) entry n uri := by
  obtain ⟨p, hp, huri⟩ := ImportTree.mem_resolved.1 h
  obtain ⟨hle, k, hk, hwithin⟩ := within_of_placed hn hlimit htexts p hp
  have hnamed : p.node.outcome.uri? = some uri := by rw [huri]; rfl
  exact (hwithin.step (imports_of_placed htexts hp hnamed)).mono (hk ▸ hle)

/-- Under a limit, and if keys tell the reachable stylesheets apart, nothing is shown that lies
beyond the limit; and all that lies within it is shown if and only if this is so for the imports of
those stylesheets that are left unread although fewer steps lead to them. -/
theorem follow_within_iff (hchain : ∀ strategy ∈ chain, strategy.IsStored) (store : Store)
    (options : FollowOptions) (n : Nat) (hn : 1 ≤ n) (hlimit : options.maxDepth = some n)
    (entry text : Text) (textOf : Text → Text)
    (htexts : (follow chain store options entry text).1.Texts chain store text textOf)
    (hkeys : ∀ u v, Relation.ReflTransGen (Imports chain store textOf) entry u →
      Relation.ReflTransGen (Imports chain store textOf) entry v →
        store.key u = store.key v → u = v) :
    (∀ v ∈ (follow chain store options entry text).1.resolved,
        v ≠ entry ∧ Within (Imports chain store textOf) entry n v) ∧
      ((∀ v, v ≠ entry → Within (Imports chain store textOf) entry n v →
          v ∈ (follow chain store options entry text).1.resolved) ↔
        ∀ m < n, ∀ u v, Within (Imports chain store textOf) entry m u →
          (follow chain store options entry text).1.LeavesUnread options u →
            Imports chain store textOf u v → v ≠ entry →
              v ∈ (follow chain store options entry text).1.resolved) := by
  have hreadable : Readable chain store := readable_of_isStored hchain
  refine ⟨fun v hv => ⟨ne_entry_of_resolved hv, within_of_resolved hn hlimit htexts hv⟩, ?_, ?_⟩
  · intro hall m hm u v hwithin _ himports hne
    exact hall v hne ((hwithin.step himports).mono hm)
  intro hunread
  -- by induction on the way: its last stylesheet but one is expanded, or the condition speaks of it
  have hshown : ∀ m ≤ n, ∀ v, Within (Imports chain store textOf) entry m v →
      v = entry ∨ v ∈ (follow chain store options entry text).1.resolved := by
    intro m hm v hwithin
    induction hwithin with
    | entry => exact Or.inl rfl
    | @step m u v hwithin himports ih =>
      have hexpanded : (follow chain store options entry text).1.Expands options u →
          v = entry ∨ v ∈ (follow chain store options entry text).1.resolved := by
        intro hu
        refine resolved_of_imports hreadable (fun x y hx hy => ?_) htexts hu himports
        exact hkeys x y (reachable_of_opened htexts hx) (reachable_of_opened htexts hy)
      rcases ih (Nat.le_of_succ_le hm) with hu | hu
      · exact hexpanded (Or.inl hu)
      rcases ImportTree.expands_or_leavesUnread options hu with hu | hu
      · exact hexpanded hu
      · by_cases hv : v = entry
        · exact Or.inl hv
        · exact Or.inr (hunread m hm u v hwithin hu himports hv)
  intro v hne hwithin
  exact (hshown n (Nat.le_refl n) v hwithin).resolve_left hne

/-! ## A detour -/

/-- The texts of an entry and of the stylesheets in a bundle. -/
def Bundle.textOf (bundle : Bundle) (entry text uri : Text) : Text :=
  if uri = entry then text else Utf8.decode ((bundle.get? uri).getD [])

theorem Bundle.texts (bundle : Bundle) (store : Store) (options : FollowOptions)
    (entry text : Text) :
    (follow [.bundle bundle] store options entry text).1.Texts [.bundle bundle] store text
      (bundle.textOf entry text) := by
  refine ⟨if_pos rfl, fun p hp source huri hfound => ?_⟩
  have hne : source.uri ≠ entry := ne_entry_of_resolved (ImportTree.mem_resolved.2 ⟨p, hp, huri⟩)
  obtain ⟨strategy, hstrategy, hopen⟩ := Chain.exists_openUri_of_resolve hfound
  obtain rfl := List.mem_singleton.1 hstrategy
  obtain ⟨bytes, hget, hstream⟩ := Option.map_eq_some_iff.1 (Except.ok.inj hopen)
  rw [Source.readText, ← hstream, Stream.drain_ofBytes, textOf, if_neg hne, hget]
  rfl

/-- A way of three steps to a stylesheet that the entry imports itself. -/
def detour : Bundle where
  entries := [("/x.scss".toList, Utf8.encode "@import 'y';".toList),
    ("/y.scss".toList, Utf8.encode "@import 'b';".toList),
    ("/b.scss".toList, Utf8.encode "@import 'v';".toList),
    ("/v.scss".toList, [])]

def detourEntry : Text := "/main.scss".toList

def detourText : Text := "@import 'x', 'b';".toList

theorem detour_isStored : ∀ strategy ∈ [Strategy.bundle detour], strategy.IsStored := by
  intro strategy hstrategy
  exact Or.inr ⟨detour, List.mem_singleton.1 hstrategy⟩

theorem follow_within_iff_detour :
    (∀ v, v ≠ detourEntry →
      Within (Imports [.bundle detour] .empty (detour.textOf detourEntry detourText)) detourEntry 3
        v →
      v ∈ (follow [.bundle detour] .empty ⟨some 3, false⟩ detourEntry detourText).1.resolved) ↔
    ∀ m < 3, ∀ u v,
      Within (Imports [.bundle detour] .empty (detour.textOf detourEntry detourText)) detourEntry m
        u →
      (follow [.bundle detour] .empty ⟨some 3, false⟩ detourEntry detourText).1.LeavesUnread
        ⟨some 3, false⟩ u →
      Imports [.bundle detour] .empty (detour.textOf detourEntry detourText) u v →
      v ≠ detourEntry →
        v ∈ (follow [.bundle detour] .empty ⟨some 3, false⟩ detourEntry detourText).1.resolved := by
  have hlimited := follow_within_iff detour_isStored .empty ⟨some 3, false⟩ 3 (by decide) rfl
    detourEntry detourText _ (detour.texts .empty ⟨some 3, false⟩ detourEntry detourText)
    fun u v _ _ hkey => hkey
  exact hlimited.2

/-- Two steps lead to the last stylesheet of the detour. It is shown with a limit of two levels, and
hidden with a limit of three. -/
theorem detour_hidden :
    (∀ strategy ∈ [Strategy.bundle detour], strategy.IsStored) ∧
      (∀ u v, Store.empty.key u = Store.empty.key v → u = v) ∧
      Within (Imports [.bundle detour] .empty (detour.textOf detourEntry detourText)) detourEntry 2
        "/v.scss".toList ∧
      "/v.scss".toList ≠ detourEntry ∧
      "/v.scss".toList
        ∈ (follow [.bundle detour] .empty ⟨some 2, false⟩ detourEntry detourText).1.resolved ∧
      "/v.scss".toList
        ∉ (follow [.bundle detour] .empty ⟨some 3, false⟩ detourEntry detourText).1.resolved := by
  have hfirst : Imports [.bundle detour] .empty (detour.textOf detourEntry detourText) detourEntry
      "/b.scss".toList :=
    ⟨⟨"b".toList, 1, .stylesheet⟩, by decide +kernel, rfl, _, rfl, rfl⟩
  have hsecond : Imports [.bundle detour] .empty (detour.textOf detourEntry detourText)
      "/b.scss".toList "/v.scss".toList :=
    ⟨⟨"v".toList, 1, .stylesheet⟩, by decide +kernel, rfl, _, rfl, rfl⟩
  exact ⟨detour_isStored, fun u v hkey => hkey, (Within.entry.step hfirst).step hsecond, by decide,
    by decide +kernel, by decide +kernel⟩

end SheetImports
