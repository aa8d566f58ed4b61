import Wsrv.Text
import Wsrv.Lib.SepJoin

/-!
# Blueprints and route registration

A `Blueprint` is a tree: a prefix, group middlewares, staged routes and child
blueprints.  `registerBlueprint` flattens it into the route table of the
application.  `staged` lists the staged routes of a tree in the order of
registration, each with the blueprints on the path from the root to its owner;
`registerBlueprint_routes` says what the table gets from each of them, and
`registers_expected_iff` when that is what the path calls for: the recursion
hands the prefix of the parent's parent to the children, so the prefixes of the
proper ancestors are lost.  `combine_paths` itself is associative, with the
empty path as its unit (`combinePaths_monoid`).

`H` and `M` are the pointers to handlers and middlewares.
-/

namespace Wsrv.Routing

variable {H M : Type}

/-! ## The source -/

def slash : UInt8 := '/'.toUInt8

/-- `combine_paths`. -/
def combinePaths (base relative : Str) : Str :=
  if base = [] then relative
  else if relative = [] then base
  else
    let baseEndsSlash := base.getLast? = some slash
    let relStartsSlash := relative.head? = some slash
    if baseEndsSlash ∧ relStartsSlash then base ++ relative.drop 1
    else if ¬ baseEndsSlash ∧ ¬ relStartsSlash then base ++ [slash] ++ relative
    else base ++ relative

structure StagedRoute (H M : Type) where
  method : Str
  pattern : Str
  name : Str
  handler : H
  middlewares : List M

/-- `Blueprint`, with the fields behind its getters. -/
inductive Blueprint (H M : Type)
  | mk (pfx : Str) (groupMiddlewares : List M) (routes : List (StagedRoute H M))
      (children : List (Blueprint H M))

/-- `RouteEntry`; the compiled `route_` is a function of the pattern. -/
structure RouteEntry (H M : Type) where
  method : Str
  pattern : Str
  handler : H
  routeMiddlewares : List M
  deriving DecidableEq

/-- The tables of the application.  A `Route *` of `named_routes_` is the position of the entry
that owns the route, which never moves. -/
structure Application (H M : Type) where
  globalMiddlewares : List M
  routes : List (RouteEntry H M)
  namedRoutes : Std.ExtTreeMap Str Nat

/-- `Application::addRoute`.  The route is made from the pattern: where assertions are compiled in, a
pattern that does not parse ends the program (`RouteImpl.new`). -/
def Application.addRoute (app : Application H M) (method path : Str) (handler : H)
    (middlewares : List M := []) (name : Str := []) : Application H M :=
  let app' := { app with routes := app.routes ++ [⟨method, path, handler, middlewares⟩] }
  if name = [] then app'
  else { app' with namedRoutes := app'.namedRoutes.insert name app.routes.length }

/-- The loop over the staged routes of one blueprint. -/
def addStagedRoutes (pfx : Str) (accumulated : List M) (app : Application H M) :
    List (StagedRoute H M) → Application H M
  | [] => app
  | r :: rs =>
    let fullPattern := combinePaths pfx r.pattern
    let finalPipeline := accumulated ++ r.middlewares
    addStagedRoutes pfx accumulated (app.addRoute r.method fullPattern r.handler finalPipeline) rs

mutual

/-- `Application::registerBlueprintRecursive`. -/
def registerBlueprintRecursive (app : Application H M) (currentPrefix : Str)
    (accumulated : List M) : Blueprint H M → Application H M
  | .mk pfx group routes children =>
    let fullPrefix := combinePaths currentPrefix pfx
    let accumulated := accumulated ++ group
    let app := addStagedRoutes fullPrefix accumulated app routes
    -- the children are given `current_prefix`, not the combined one
    registerChildren app currentPrefix accumulated children

/-- The loop over the child blueprints. -/
def registerChildren (app : Application H M) (currentPrefix : Str) (accumulated : List M) :
    List (Blueprint H M) → Application H M
  | [] => app
  | c :: cs =>
    registerChildren (registerBlueprintRecursive app currentPrefix accumulated c) currentPrefix
      accumulated cs

end

def registerBlueprint (app : Application H M) (bp : Blueprint H M) : Application H M :=
  registerBlueprintRecursive app [] [] bp

/-! ## What registration should do -/

/-- One blueprint on a path: its prefix and its group middlewares. -/
abbrev Level (M : Type) := Str × List M

mutual

/-- The staged routes of a tree in the order of registration, each with the levels above its
owner, root first, and the level of the owner. -/
def staged (above : List (Level M)) : Blueprint H M → List (List (Level M) × Level M × StagedRoute H M)
  | .mk pfx group routes children =>
    routes.map (fun r => (above, (pfx, group), r)) ++ stagedChildren (above ++ [(pfx, group)]) children

def stagedChildren (above : List (Level M)) :
    List (Blueprint H M) → List (List (Level M) × Level M × StagedRoute H M)
  | [] => []
  | c :: cs => staged above c ++ stagedChildren above cs

end

/-- The entry a staged route should get: `combine_paths` folded over the prefixes on the path and
the route's own pattern, and all the middlewares along the path. -/
def expectedEntry (x : List (Level M) × Level M × StagedRoute H M) : RouteEntry H M :=
  let path := x.1 ++ [x.2.1]
  ⟨x.2.2.method, combinePaths ((path.map Prod.fst).foldl combinePaths []) x.2.2.pattern,
    x.2.2.handler, path.flatMap Prod.snd ++ x.2.2.middlewares⟩

/-- The entry it gets. -/
def registeredEntry (x : List (Level M) × Level M × StagedRoute H M) : RouteEntry H M :=
  let path := x.1 ++ [x.2.1]
  ⟨x.2.2.method, combinePaths x.2.1.1 x.2.2.pattern, x.2.2.handler,
    path.flatMap Prod.snd ++ x.2.2.middlewares⟩

/-! ## `combine_paths` joins over one slash -/

theorem combinePaths_eq (base relative : Str) :
    combinePaths base relative = SepJoin.sepJoin slash base relative := by
  unfold combinePaths SepJoin.sepJoin
  by_cases hb : base = []
  · simp [hb]
  by_cases hr : relative = []
  · simp [hr]
  simp only [hb, hr, ↓reduceIte]
  by_cases he : base.getLast? = some slash
  · have hbase : base = base.dropLast ++ [slash] := by
      have := List.dropLast_append_getLast? slash he
      exact this.symm
    by_cases hs : relative.head? = some slash
    · simp only [he, hs, and_self, ↓reduceIte, SepJoin.dropEnd, SepJoin.dropStart,
        List.drop_one]
      conv_lhs => rw [hbase]
      simp
    · simp only [he, hs, and_false, not_true_eq_false, false_and, ↓reduceIte, SepJoin.dropEnd,
        SepJoin.dropStart]
      conv_lhs => rw [hbase]
      simp
  · by_cases hs : relative.head? = some slash
    · have hrel : relative = slash :: relative.tail := by
        cases relative with
        | nil => simp at hs
        | cons x relative => simpa using hs
      simp only [he, hs, false_and, not_false_eq_true, not_true_eq_false, and_false, ↓reduceIte,
        SepJoin.dropEnd, SepJoin.dropStart]
      rw [← hrel]
    · simp [he, hs, SepJoin.dropEnd, SepJoin.dropStart]

theorem foldl_combinePaths (l : List Str) (a : Str) :
    l.foldl combinePaths a = l.foldl (SepJoin.sepJoin slash) a := by
  induction l generalizing a with
  | nil => rfl
  | cons p l ih => rw [List.foldl_cons, List.foldl_cons, combinePaths_eq, ih]

/-! ## The order of combination -/

/-- Paths that are combined two by two. -/
inductive Grouping
  | path (p : Str)
  | combine (left right : Grouping)

namespace Grouping

def combined : Grouping → Str
  | path p => p
  | combine left right => combinePaths left.combined right.combined

def paths : Grouping → List Str
  | path p => [p]
  | combine left right => left.paths ++ right.paths

/-- The paths matter, and not how they are grouped. -/
theorem combined_eq (g : Grouping) : g.combined = g.paths.foldl combinePaths [] := by
  induction g with
  | path p => rfl
  | combine left right ihl ihr =>
    rw [combined, paths, List.foldl_append, ihl, ihr, combinePaths_eq,
      foldl_combinePaths right.paths (left.paths.foldl combinePaths []),
      foldl_combinePaths right.paths []]
    exact (SepJoin.foldl_sepJoin slash right.paths _).symm

end Grouping

/-- **`combine_paths` is a monoid on texts**: it puts one slash between two that are not empty, and
patterns do not depend on how their prefixes are grouped. -/
theorem combinePaths_monoid (a b c : Str) :
    combinePaths (combinePaths a b) c = combinePaths a (combinePaths b c) ∧
      combinePaths [] a = a ∧ combinePaths a [] = a ∧
      (a ≠ [] → b ≠ [] →
        combinePaths a b = SepJoin.dropEnd slash a ++ slash :: SepJoin.dropStart slash b) ∧
      ∀ g : Grouping, g.combined = g.paths.foldl combinePaths [] := by
  refine ⟨?_, rfl, ?_, fun ha hb => ?_, Grouping.combined_eq⟩
  · simp only [combinePaths_eq]
    exact SepJoin.sepJoin_assoc slash a b c
  · rw [combinePaths_eq]
    exact SepJoin.sepJoin_nil_right slash a
  · rw [combinePaths_eq]
    exact SepJoin.sepJoin_of_ne slash ha hb

/-- A lone slash between two paths is the one between them. -/
theorem combinePaths_slash :
    combinePaths (combinePaths (str "/api/") (str "/")) (str "/users") = str "/api/users" :=
  (combinePaths_monoid (str "/api/") (str "/") (str "/users")).1.trans
    ((combinePaths_monoid (str "/api/") (combinePaths (str "/") (str "/users")) []).2.2.2.1
      (by decide) (by decide))

/-! ## The route table -/

theorem addRoute_routes (app : Application H M) (method path : Str) (handler : H)
    (middlewares : List M) (name : Str) :
    (app.addRoute method path handler middlewares name).routes =
      app.routes ++ [⟨method, path, handler, middlewares⟩] := by
  unfold Application.addRoute
  split <;> rfl

theorem addStagedRoutes_routes (pfx : Str) (accumulated : List M) (app : Application H M)
    (rs : List (StagedRoute H M)) :
    (addStagedRoutes pfx accumulated app rs).routes =
      app.routes ++ rs.map fun r =>
        ⟨r.method, combinePaths pfx r.pattern, r.handler, accumulated ++ r.middlewares⟩ := by
  induction rs generalizing app with
  | nil => simp [addStagedRoutes]
  | cons r rs ih => simp [addStagedRoutes, ih, addRoute_routes]

mutual

theorem registerBlueprintRecursive_routes (app : Application H M) (above : List (Level M))
    (bp : Blueprint H M) :
    (registerBlueprintRecursive app [] (above.flatMap Prod.snd) bp).routes =
      app.routes ++ (staged above bp).map registeredEntry := by
  cases bp with
  | mk pfx group routes children =>
    have hnil : combinePaths [] pfx = pfx := rfl
    have hacc : above.flatMap Prod.snd ++ group = (above ++ [(pfx, group)]).flatMap Prod.snd := by
      simp
    simp only [registerBlueprintRecursive, hnil]
    rw [hacc, registerChildren_routes, addStagedRoutes_routes]
    simp [staged, registeredEntry]

theorem registerChildren_routes (app : Application H M) (above : List (Level M))
    (children : List (Blueprint H M)) :
    (registerChildren app [] (above.flatMap Prod.snd) children).routes =
      app.routes ++ (stagedChildren above children).map registeredEntry := by
  cases children with
  | nil => simp [registerChildren, stagedChildren]
  | cons c cs =>
    simp only [registerChildren]
    rw [registerChildren_routes, registerBlueprintRecursive_routes]
    simp [stagedChildren]

end

/-- Registration appends one entry for each staged route, in order, with all the middlewares of
the path but only the prefix of the owner. -/
theorem registerBlueprint_routes (app : Application H M) (bp : Blueprint H M) :
    (registerBlueprint app bp).routes = app.routes ++ (staged [] bp).map registeredEntry :=
  registerBlueprintRecursive_routes app [] bp

/-! ## When the table is the expected one -/

/-- The prefixes above the owner of the route do not show in its path: they are all empty, or
they are all empty or a lone slash and the path of the route below them begins with a slash. -/
def Invisible (x : List (Level M) × Level M × StagedRoute H M) : Prop :=
  (∀ l ∈ x.1, l.1 = []) ∨
    ((∀ l ∈ x.1, l.1 = [] ∨ l.1 = [slash]) ∧
      (combinePaths x.2.1.1 x.2.2.pattern).head? = some slash)

theorem registeredEntry_eq_iff (x : List (Level M) × Level M × StagedRoute H M) :
    registeredEntry x = expectedEntry x ↔ Invisible x := by
  obtain ⟨above, owner, r⟩ := x
  have hfold : combinePaths (((above ++ [owner]).map Prod.fst).foldl combinePaths []) r.pattern =
      SepJoin.sepJoin slash ((above.map Prod.fst).foldl (SepJoin.sepJoin slash) [])
        (combinePaths owner.1 r.pattern) := by
    rw [List.map_append, List.foldl_append, List.map_singleton, List.foldl_cons, List.foldl_nil,
      combinePaths_eq, combinePaths_eq, combinePaths_eq, SepJoin.sepJoin_assoc, foldl_combinePaths]
  have hentry : registeredEntry (above, owner, r) = expectedEntry (above, owner, r) ↔
      SepJoin.sepJoin slash ((above.map Prod.fst).foldl (SepJoin.sepJoin slash) [])
        (combinePaths owner.1 r.pattern) = combinePaths owner.1 r.pattern := by
    simp only [registeredEntry, expectedEntry, RouteEntry.mk.injEq, true_and, and_true, hfold]
    exact eq_comm
  rw [hentry, SepJoin.sepJoin_eq_right_iff, SepJoin.foldl_sepJoin_eq_nil,
    SepJoin.foldl_sepJoin_eq_sep]
  simp only [List.forall_mem_cons, List.forall_mem_map, true_and, true_or, Invisible]
  constructor
  · rintro (h | ⟨⟨h, _⟩, hs⟩)
    · exact Or.inl h
    · exact Or.inr ⟨h, hs⟩
  · rintro (h | ⟨h, hs⟩)
    · exact Or.inl h
    · by_cases hall : ∀ l ∈ above, l.1 = []
      · exact Or.inl hall
      · exact Or.inr ⟨⟨h, hall⟩, hs⟩

/-- **Blueprint registration.**  The staged routes of a tree are registered, each once and in
order, with the pattern and the middlewares their paths call for if and only if no route has a
visible prefix above its owner. -/
theorem registers_expected_iff (app : Application H M) (bp : Blueprint H M) :
    (registerBlueprint app bp).routes = app.routes ++ (staged [] bp).map expectedEntry ↔
      ∀ x ∈ staged [] bp, Invisible x := by
  rw [registerBlueprint_routes, List.append_cancel_left_eq, List.map_inj_left]
  exact forall₂_congr fun x _ => registeredEntry_eq_iff x

/-- A blueprint with prefix `/api` and a child `/v1` that stages `/users`. -/
def nestedBlueprint : Blueprint Nat Nat :=
  .mk (str "/api") [1] [] [.mk (str "/v1") [2] [⟨str "GET", str "/users", [], 0, [3]⟩] []]

theorem nested_prefix_lost :
    let app : Application Nat Nat := ⟨[], [], ∅⟩
    (registerBlueprint app nestedBlueprint).routes =
        [⟨str "GET", str "/v1/users", 0, [1, 2, 3]⟩] ∧
      app.routes ++ (staged [] nestedBlueprint).map expectedEntry =
        [⟨str "GET", str "/api/v1/users", 0, [1, 2, 3]⟩] ∧
      (registerBlueprint app nestedBlueprint).routes ≠
        app.routes ++ (staged [] nestedBlueprint).map expectedEntry := by
  decide

end Wsrv.Routing
