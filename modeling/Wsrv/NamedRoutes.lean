import Wsrv.Application
import Wsrv.Route

/-!
# Named routes

A name given to `Application::addRoute` resolves to its own route for as long as
no later call gives it again: the table of routes only grows.  A blueprint
stages a name with every route too, but `registerBlueprintRecursive` hands none
of them to `addRoute`, so that a staged name resolves to whatever had it before
(`named_routes_resolve_iff`).
-/

namespace Wsrv.Routing

open Route (RouteImpl)

variable {H M : Type}

/-! ## The source -/

/-- `Route::url` on the route of a pattern; `none` where the constructor of the route has ended the
program. -/
def routeUrl (ndebug : Bool) (pattern : Str) (params : Dictionary) (relative : Bool) : Option Str :=
  (RouteImpl.new ndebug pattern).map fun route => route.url params relative

/-- `Route::url` through a `Route *`, the position of an entry. -/
def Application.entryUrl (app : Application H M) (ndebug : Bool) (position : Nat)
    (params : Dictionary) (relative : Bool) : Option Str :=
  app.routes[position]?.bind fun entry => routeUrl ndebug entry.pattern params relative

/-- `Application::url`. -/
def Application.url (app : Application H M) (ndebug : Bool) (name : Str) (params : Dictionary)
    (relative : Bool) : Option Str :=
  match app.namedRoutes[name]? with
  | none => some []
  | some position => app.entryUrl ndebug position params relative

/-- The calls that change the tables. -/
inductive Registration (H M : Type)
  | route (method path : Str) (handler : H) (middlewares : List M) (name : Str)
  | blueprint (bp : Blueprint H M)

def Application.register (app : Application H M) : Registration H M → Application H M
  | .route method path handler middlewares name => app.addRoute method path handler middlewares name
  | .blueprint bp => registerBlueprint app bp

/-- The application after some registrations. -/
def registered (regs : List (Registration H M)) : Application H M :=
  regs.foldl Application.register ⟨[], [], ∅⟩

/-! ## The routes that have a name -/

/-- The pattern that a call of `addRoute` gives the name. -/
def Registration.given (name : Str) : Registration H M → Option Str
  | .route _ path _ _ own => if own ≠ [] ∧ own = name then some path else none
  | .blueprint _ => none

/-- The pattern that has the name after some registrations, the last one that was given it. -/
def lastGiven (regs : List (Registration H M)) (name : Str) : Option Str :=
  regs.foldl (fun found r => (r.given name).or found) none

/-- The name points at an entry with the pattern, or at none. -/
def Named (app : Application H M) (name : Str) (found : Option Str) : Prop :=
  (app.namedRoutes[name]? = none ∧ found = none) ∨
    ∃ position entry, app.namedRoutes[name]? = some position ∧
      app.routes[position]? = some entry ∧ found = some entry.pattern

theorem Named.url_eq {app : Application H M} {name : Str} {found : Option Str}
    (h : Named app name found) (ndebug : Bool) (params : Dictionary) (relative : Bool) :
    app.url ndebug name params relative =
      found.elim (some []) fun pattern => routeUrl ndebug pattern params relative := by
  unfold Application.url Application.entryUrl
  rcases h with ⟨hname, rfl⟩ | ⟨position, entry, hname, hentry, rfl⟩
  · rw [hname]
    rfl
  · rw [hname]
    simp only [hentry, Option.bind_some, Option.elim_some]

/-- Entries are only ever added behind the others. -/
theorem Named.grow {app app' : Application H M} {name : Str} {found : Option Str}
    {entries : List (RouteEntry H M)} (h : Named app name found)
    (hname : app'.namedRoutes[name]? = app.namedRoutes[name]?)
    (hroutes : app'.routes = app.routes ++ entries) : Named app' name found := by
  rcases h with ⟨hnone, hfound⟩ | ⟨position, entry, hsome, hentry, hfound⟩
  · exact .inl ⟨by rw [hname, hnone], hfound⟩
  · refine .inr ⟨position, entry, by rw [hname, hsome], ?_, hfound⟩
    have hlt : position < app.routes.length := (List.getElem?_eq_some_iff.mp hentry).1
    rw [hroutes, List.getElem?_append_left hlt, hentry]

theorem addStagedRoutes_namedRoutes (pfx : Str) (accumulated : List M) (app : Application H M)
    (rs : List (StagedRoute H M)) :
    (addStagedRoutes pfx accumulated app rs).namedRoutes = app.namedRoutes := by
  induction rs generalizing app with
  | nil => rfl
  | cons r rs ih => rw [addStagedRoutes, ih]; rfl

mutual

theorem registerBlueprintRecursive_namedRoutes (app : Application H M) (currentPrefix : Str)
    (accumulated : List M) (bp : Blueprint H M) :
    (registerBlueprintRecursive app currentPrefix accumulated bp).namedRoutes =
      app.namedRoutes := by
  cases bp with
  | mk pfx group routes children =>
    rw [registerBlueprintRecursive, registerChildren_namedRoutes, addStagedRoutes_namedRoutes]

theorem registerChildren_namedRoutes (app : Application H M) (currentPrefix : Str)
    (accumulated : List M) (children : List (Blueprint H M)) :
    (registerChildren app currentPrefix accumulated children).namedRoutes = app.namedRoutes := by
  cases children with
  | nil => rw [registerChildren]
  | cons c cs =>
    rw [registerChildren, registerChildren_namedRoutes, registerBlueprintRecursive_namedRoutes]

end

/-- A blueprint leaves the names as they are. -/
theorem registerBlueprint_namedRoutes (app : Application H M) (bp : Blueprint H M) :
    (registerBlueprint app bp).namedRoutes = app.namedRoutes :=
  registerBlueprintRecursive_namedRoutes app [] [] bp

theorem addRoute_named (app : Application H M) (method path : Str) (handler : H)
    (middlewares : List M) {name : Str} (hname : name ≠ []) :
    Named (app.addRoute method path handler middlewares name) name (some path) := by
  refine .inr ⟨app.routes.length, ⟨method, path, handler, middlewares⟩, ?_, ?_, rfl⟩
  · simp [Application.addRoute, hname]
  · rw [addRoute_routes, List.getElem?_concat_length]

theorem addRoute_namedRoutes (app : Application H M) (method path : Str) (handler : H)
    (middlewares : List M) {own name : Str} (h : ¬ (own ≠ [] ∧ own = name)) :
    (app.addRoute method path handler middlewares own).namedRoutes[name]? =
      app.namedRoutes[name]? := by
  unfold Application.addRoute
  by_cases hown : own = []
  · simp [hown]
  · have hne : own ≠ name := fun heq => h ⟨hown, heq⟩
    simp [hown, Std.ExtTreeMap.getElem?_insert, hne]

/-- **One registration** gives its own name and leaves the others. -/
theorem Named.register {app : Application H M} {name : Str} {found : Option Str}
    (h : Named app name found) (r : Registration H M) :
    Named (app.register r) name ((r.given name).or found) := by
  cases r with
  | blueprint bp =>
    exact h.grow (by rw [Application.register, registerBlueprint_namedRoutes])
      (registerBlueprint_routes app bp)
  | route method path handler middlewares own =>
    by_cases hown : own ≠ [] ∧ own = name
    · have hgiven : (Registration.route method path handler middlewares own).given name =
          some path := if_pos hown
      obtain ⟨hne, rfl⟩ := hown
      rw [hgiven, Option.some_or]
      exact addRoute_named app method path handler middlewares hne
    · have hgiven : (Registration.route method path handler middlewares own).given name = none :=
        if_neg hown
      rw [hgiven, Option.none_or]
      exact h.grow (addRoute_namedRoutes app method path handler middlewares hown)
        (addRoute_routes app method path handler middlewares own)

/-- **Any number of registrations.** -/
theorem Named.foldl {app : Application H M} {name : Str} {found : Option Str}
    (h : Named app name found) (regs : List (Registration H M)) :
    Named (regs.foldl Application.register app) name
      (regs.foldl (fun found r => (r.given name).or found) found) := by
  induction regs generalizing app found with
  | nil => exact h
  | cons r regs ih => exact ih (h.register r)

theorem registered_named (regs : List (Registration H M)) (name : Str) :
    Named (registered regs) name (lastGiven regs name) :=
  Named.foldl (.inl ⟨rfl, rfl⟩) regs

theorem foldl_given {regs : List (Registration H M)} {name : Str}
    (h : ∀ r ∈ regs, r.given name = none) (found : Option Str) :
    regs.foldl (fun found r => (r.given name).or found) found = found := by
  induction regs with
  | nil => rfl
  | cons r regs ih =>
    rw [List.foldl_cons, h r List.mem_cons_self]
    exact ih fun r' hr' => h r' (List.mem_cons_of_mem _ hr')

/-! ## Which names resolve -/

/-- The staged routes of a blueprint that were given a name are resolvable once it is registered:
by its name each has the urls of the entry it was registered as. -/
def StagedResolve (ndebug : Bool) (app : Application H M) (bp : Blueprint H M) : Prop :=
  ∀ i x, (staged [] bp)[i]? = some x → x.2.2.name ≠ [] → ∀ params relative,
    (registerBlueprint app bp).url ndebug x.2.2.name params relative =
      (registerBlueprint app bp).entryUrl ndebug (app.routes.length + i) params relative

/-- The names given to `addRoute` keep resolving to their routes until they are given again. -/
def DirectResolve (ndebug : Bool) (regs : List (Registration H M)) : Prop :=
  ∀ pre method path handler middlewares name post,
    regs = pre ++ .route method path handler middlewares name :: post → name ≠ [] →
    (∀ r ∈ post, r.given name = none) → ∀ params relative,
      (registered regs).url ndebug name params relative =
        (registered regs).entryUrl ndebug (registered pre).routes.length params relative

theorem registered_append (pre post : List (Registration H M)) :
    registered (pre ++ post) = post.foldl Application.register (registered pre) :=
  List.foldl_append

theorem register_routes (app : Application H M) (r : Registration H M) :
    ∃ entries, (app.register r).routes = app.routes ++ entries := by
  cases r with
  | blueprint bp => exact ⟨_, registerBlueprint_routes app bp⟩
  | route method path handler middlewares name =>
    exact ⟨_, addRoute_routes app method path handler middlewares name⟩

theorem foldl_routes (regs : List (Registration H M)) (app : Application H M) :
    app.routes <+: (regs.foldl Application.register app).routes := by
  induction regs generalizing app with
  | nil => exact List.prefix_refl _
  | cons r regs ih =>
    obtain ⟨entries, h⟩ := register_routes app r
    exact (h ▸ List.prefix_append _ _ : app.routes <+: (app.register r).routes).trans (ih _)

/-- Names given directly resolve in every run. -/
theorem directResolve (ndebug : Bool) (regs : List (Registration H M)) :
    DirectResolve ndebug regs := by
  rintro pre method path handler middlewares name post rfl hname hpost params relative
  set own := (registered pre).addRoute method path handler middlewares name with hown
  have hregistered : registered (pre ++ .route method path handler middlewares name :: post) =
      post.foldl Application.register own := registered_append pre _
  have hnamed : Named (post.foldl Application.register own) name (some path) := by
    have := (addRoute_named (registered pre) method path handler middlewares hname).foldl post
    rwa [foldl_given hpost] at this
  obtain ⟨tail, htail⟩ := foldl_routes post own
  have hentry : (post.foldl Application.register own).routes[(registered pre).routes.length]? =
      some ⟨method, path, handler, middlewares⟩ := by
    rw [← htail, hown, addRoute_routes, List.append_assoc, List.getElem?_append_right le_rfl]
    simp
  rw [hregistered, hnamed.url_eq, Application.entryUrl, hentry]
  rfl

/-- An absolute url is not empty. -/
theorem url_absolute (route : RouteImpl) (params : Dictionary) : route.url params false ≠ [] := by
  have hgo : ∀ es res, res ≠ [] → RouteImpl.url.go params res es ≠ [] := by
    intro es
    induction es with
    | nil => exact fun res h => h
    | cons e es ih =>
      intro res h
      unfold RouteImpl.url.go
      split
      · exact ih _ (by simp)
      · split
        · split
          · exact h
          · exact ih _ h
        · exact ih _ (by simp)
  exact hgo _ _ (by simp)

/-- A staged name is looked up as it was before the blueprint. -/
theorem registerBlueprint_url (ndebug : Bool) (pre : List (Registration H M)) (bp : Blueprint H M)
    (name : Str) (params : Dictionary) (relative : Bool) :
    (registerBlueprint (registered pre) bp).url ndebug name params relative =
      (lastGiven pre name).elim (some []) fun pattern =>
        routeUrl ndebug pattern params relative :=
  ((registered_named pre name).register (.blueprint bp)).url_eq ndebug params relative

theorem registerBlueprint_entryUrl (ndebug : Bool) (app : Application H M) (bp : Blueprint H M)
    {i : Nat} {x : List (Level M) × Level M × StagedRoute H M} (hx : (staged [] bp)[i]? = some x)
    (params : Dictionary) (relative : Bool) :
    (registerBlueprint app bp).entryUrl ndebug (app.routes.length + i) params relative =
      routeUrl ndebug (registeredEntry x).pattern params relative := by
  have hentry : (registerBlueprint app bp).routes[app.routes.length + i]? =
      some (registeredEntry x) := by
    rw [registerBlueprint_routes, List.getElem?_append_right (Nat.le_add_right _ _),
      Nat.add_sub_cancel_left, List.getElem?_map, hx]
    rfl
  rw [Application.entryUrl, hentry]
  rfl

/-- The urls are those of a pattern only where there is one. -/
theorem elim_urls_iff (ndebug : Bool) (found : Option Str) (pattern : Str) :
    (∀ params relative, found.elim (some []) (fun own => routeUrl ndebug own params relative) =
        routeUrl ndebug pattern params relative) ↔
      ∃ own, found = some own ∧ ∀ params relative,
        routeUrl ndebug own params relative = routeUrl ndebug pattern params relative := by
  cases found with
  | some own => simp
  | none =>
    simp only [Option.elim_none, reduceCtorEq, false_and, exists_false, iff_false]
    intro h
    obtain ⟨route, -, hurl⟩ := Option.map_eq_some_iff.mp (h ∅ false).symm
    exact url_absolute route ∅ hurl

/-- **Named routes.**  In a run of registrations every staged name resolves to its route, and every
name given directly, if and only if each staged name had been given before to a route with the
same urls. -/
theorem named_routes_resolve_iff (ndebug : Bool) (regs : List (Registration H M)) :
    ((∀ pre bp post, regs = pre ++ .blueprint bp :: post →
        StagedResolve ndebug (registered pre) bp) ∧ DirectResolve ndebug regs) ↔
      ∀ pre bp post, regs = pre ++ .blueprint bp :: post → ∀ x ∈ staged [] bp, x.2.2.name ≠ [] →
        ∃ own, lastGiven pre x.2.2.name = some own ∧ ∀ params relative,
          routeUrl ndebug own params relative =
            routeUrl ndebug (registeredEntry x).pattern params relative := by
  rw [and_iff_left (directResolve ndebug regs)]
  refine forall₃_congr fun pre bp post => forall_congr' fun _ => ?_
  constructor
  · intro h x hx hname
    obtain ⟨i, hi⟩ := List.mem_iff_getElem?.mp hx
    rw [← elim_urls_iff]
    intro params relative
    rw [← registerBlueprint_url ndebug pre bp, h i x hi hname,
      registerBlueprint_entryUrl ndebug _ bp hi]
  · intro h i x hi hname params relative
    have hurls := (elim_urls_iff ndebug _ _).mpr (h x (List.mem_of_getElem? hi) hname)
    rw [registerBlueprint_url, registerBlueprint_entryUrl ndebug _ bp hi]
    exact hurls params relative

/-- A blueprint that stages a route with a name. -/
def namedBlueprint : Blueprint Nat Nat :=
  .mk (str "/user") [] [⟨str "GET", str "/{id}", str "user", 0, []⟩] []

/-- The route is in the table, and its name is not. -/
theorem staged_name_lost :
    (registered [.blueprint namedBlueprint]).url false (str "user") ∅ false = some [] ∧
      (registered [.blueprint namedBlueprint]).entryUrl false 0 ∅ false = some (str "/user/") ∧
      ¬ StagedResolve false (registered []) namedBlueprint := by
  refine ⟨by decide, by decide, fun h => ?_⟩
  exact absurd (h 0 _ rfl (by decide) ∅ false) (by decide)

end Wsrv.Routing
