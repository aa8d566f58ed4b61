import Wsrv.Application
import Wsrv.Auth
import Wsrv.Onion
import Wsrv.RouteMatch

/-!
# Dispatch

`Application::handle` runs the global middlewares around a `RoutingEngineHandler`,
which looks for the route and runs the middlewares of the route around its
handler, in a context of its own.

`handle_flat`: where every middleware calls `next` at most once, the two contexts
come to one flat composition of the global middlewares and those of the first
route that takes the method and the path, with the captures of that route stored
on the way from the ones to the others.
-/

namespace Wsrv.Dispatch

open Middleware Routing
open Route (RouteImpl)

variable {ε ω : Type}

/-! ## The source -/

/-- The pieces of `method` between the runs of white space and bars, as a token iterator over
`[\s|]+` gives them: the first one may be empty, and the text is one piece where it has no bar. -/
def methodTokens (method : Str) : List Str :=
  match method.splitOnP fun c => isspace c || c == '|'.toUInt8 with
  | [] => []
  | first :: others => first :: others.filter (· ≠ [])

example : methodTokens (str "GET | POST") = [str "GET", str "POST"] := by decide

/-- `HTTPServerRequest::matchesMethod`. -/
def matchesMethod (req : HTTPServerRequest) (method : Str) : Bool :=
  decide (req.method ∈ methodTokens method)

/-- An entry of the table. -/
abbrev Entry (ε ω : Type) := RouteEntry (RequestHandler ε (Exchange ω)) (IMiddleware ε (Exchange ω))

/-- `re.route_->matches(path, attrs)`.  There is no entry with a pattern its constructor has
refused. -/
def routeMatches (ndebug : Bool) (re : Entry ε ω) (path : Str) (attrs : Dictionary) :
    Bool × Dictionary :=
  match RouteImpl.new ndebug re.pattern with
  | some route => route.matches path attrs
  | none => (false, attrs)

/-- The loop of `RoutingEngineHandler::handle`: the entry it stops at, and its attributes. -/
def searchRoutes (ndebug : Bool) (req : HTTPServerRequest) :
    List (Entry ε ω) → Option (Entry ε ω × Dictionary)
  | [] => none
  | re :: routes =>
    let (found, attrs) := routeMatches ndebug re req.path ∅
    if found && matchesMethod req re.method then some (re, attrs) else searchRoutes ndebug req routes

/-- `req.getRouteAttributes() = std::move(attrs)`. -/
def setRouteAttributes (attrs : Dictionary) (x : Exchange ω) : Exchange ω :=
  { x with req := { x.req with ROUTE := attrs } }

/-- `RoutingEngineHandler::handle`. -/
def routingEngine (ndebug : Bool) (routes : List (Entry ε ω)) : RequestHandler ε (Exchange ω) :=
  fun x =>
    match searchRoutes ndebug x.req routes with
    | none => (.ok (), { x with res := .stockReply .notFound })
    | some (matched, attrs) =>
      let x := setRouteAttributes attrs x
      if matched.routeMiddlewares ≠ [] then
        let innerPipeline := MiddlewareContext.mk matched.routeMiddlewares (some matched.handler)
        let r := innerPipeline.run x
        (r.outcome, r.state)
      else matched.handler x

/-- `Application::handle`. -/
def handle (ndebug : Bool)
    (app : Application (RequestHandler ε (Exchange ω)) (IMiddleware ε (Exchange ω)))
    (x : Exchange ω) : Ended ε (Exchange ω) :=
  let pipeline := MiddlewareContext.mk app.globalMiddlewares (some (routingEngine ndebug app.routes))
  let r := pipeline.run x
  (r.outcome, r.state)

/-! ## What dispatch is for -/

/-- The entry takes the request. -/
def Takes (ndebug : Bool) (req : HTTPServerRequest) (re : Entry ε ω) : Bool :=
  matchesMethod req re.method && (routeMatches ndebug re req.path ∅).1

/-- The first entry that takes the request. -/
def firstRoute (ndebug : Bool) (routes : List (Entry ε ω)) (req : HTTPServerRequest) :
    Option (Entry ε ω) :=
  routes.find? (Takes ndebug req)

/-- The captures of an entry alone. -/
def captures (ndebug : Bool) (re : Entry ε ω) (req : HTTPServerRequest) : Dictionary :=
  (routeMatches ndebug re req.path ∅).2

/-- The exchange with these route attributes and no others. -/
def routed (attrs : Dictionary) (x : Exchange ω) : Exchange ω :=
  { x with req := { x.req with ROUTE := attrs } }

/-- Stores the captures of a route and goes on. -/
def storeRoute (attrs : Dictionary) : IMiddleware ε (Exchange ω) := fun x => .next (routed attrs x) .ret

/-- What comes behind the global middlewares: the middlewares of the route, which see its
captures. -/
def routeLayers (ndebug : Bool) (req : HTTPServerRequest) :
    Option (Entry ε ω) → List (IMiddleware ε (Exchange ω))
  | none => []
  | some re => storeRoute (captures ndebug re req) :: re.routeMiddlewares

/-- The handler of the route, or the reply 404. -/
def routeHandler : Option (Entry ε ω) → RequestHandler ε (Exchange ω)
  | none => fun x => (.ok (), { x with res := .stockReply .notFound })
  | some re => re.handler

/-! ## The search -/

/-- The loop stops at the first entry that takes the request, with the captures of this one. -/
theorem searchRoutes_eq (ndebug : Bool) (req : HTTPServerRequest) (routes : List (Entry ε ω)) :
    searchRoutes ndebug req routes =
      (firstRoute ndebug routes req).map fun re => (re, captures ndebug re req) := by
  induction routes with
  | nil => rfl
  | cons re routes ih =>
    have htakes : Takes ndebug req re =
        ((routeMatches ndebug re req.path ∅).1 && matchesMethod req re.method) := Bool.and_comm _ _
    simp only [searchRoutes, firstRoute, List.find?_cons, htakes]
    cases h : (routeMatches ndebug re req.path ∅).1 && matchesMethod req re.method with
    | true => rfl
    | false => exact ih

/-- The search reads the method and the path only. -/
theorem firstRoute_congr {ndebug : Bool} {req req' : HTTPServerRequest}
    (hmethod : req'.method = req.method) (hpath : req'.path = req.path)
    (routes : List (Entry ε ω)) : firstRoute ndebug routes req' = firstRoute ndebug routes req := by
  unfold firstRoute Takes matchesMethod
  rw [hmethod, hpath]

/-! ## The composition -/

/-- The routing engine is the flat composition behind the global middlewares. -/
theorem routingEngine_compose (ndebug : Bool) {routes : List (Entry ε ω)}
    (honce : ∀ re ∈ routes, ∀ m ∈ re.routeMiddlewares, ∀ x, (m x).AtMostOnce) (x : Exchange ω) :
    let found := firstRoute ndebug routes x.req
    compose (routeLayers ndebug x.req found) (fun x => some (routeHandler found x)) x =
      some (routingEngine ndebug routes x) := by
  simp only [routingEngine, searchRoutes_eq]
  cases hfound : firstRoute ndebug routes x.req with
  | none => exact compose_nil _ _
  | some re =>
    have hmem : re ∈ routes := List.mem_of_find?_eq_some hfound
    have hrun := run_compose re.handler (honce re hmem) (routed (captures ndebug re x.req) x)
    simp only [routeLayers, routeHandler, compose_cons, storeRoute, Option.map_some]
    by_cases hms : re.routeMiddlewares = []
    · rw [hms, compose_nil]
      simp [ascend, setRouteAttributes, routed]
    · rw [if_pos hms, hrun]
      rfl

/-- An entry that takes the request has a pattern that matches its path, from no attributes on. -/
theorem Takes.matches {ndebug : Bool} {req : HTTPServerRequest} {re : Entry ε ω}
    (h : Takes ndebug req re = true) :
    req.method ∈ methodTokens re.method ∧ ∃ route, RouteImpl.new ndebug re.pattern = some route ∧
      route.matches req.path ∅ = (true, captures ndebug re req) := by
  obtain ⟨hmethod, hmatches⟩ := Bool.and_eq_true_iff.mp h
  refine ⟨of_decide_eq_true hmethod, ?_⟩
  unfold captures
  unfold routeMatches at hmatches ⊢
  cases hnew : RouteImpl.new ndebug re.pattern with
  | none =>
    rw [hnew] at hmatches
    cases hmatches
  | some route =>
    rw [hnew] at hmatches
    exact ⟨route, rfl, Prod.ext hmatches rfl⟩

/-- What the routing engine does where there is a route: its middlewares and its handler get the
request with the captures of its own match. -/
theorem routingEngine_route {ndebug : Bool} {routes : List (Entry ε ω)}
    (honce : ∀ re ∈ routes, ∀ m ∈ re.routeMiddlewares, ∀ x, (m x).AtMostOnce) {x : Exchange ω}
    {re : Entry ε ω} (h : firstRoute ndebug routes x.req = some re) :
    ∃ route attrs, RouteImpl.new ndebug re.pattern = some route ∧
      route.matches x.req.path ∅ = (true, attrs) ∧ x.req.method ∈ methodTokens re.method ∧
      compose re.routeMiddlewares (fun y => some (re.handler y)) { x with req := { x.req with ROUTE := attrs } } =
        some (routingEngine ndebug routes x) := by
  obtain ⟨hmethod, route, hnew, hmatch⟩ := Takes.matches (List.find?_some h)
  have hcompose := routingEngine_compose ndebug honce x
  simp only [h, routeLayers, routeHandler, compose_cons, storeRoute] at hcompose
  refine ⟨route, _, hnew, hmatch, hmethod, ?_⟩
  rw [← hcompose]
  simp [routed, ascend]

/-- Where there is none, the reply is a 404 and nothing else changes. -/
theorem routingEngine_notFound {ndebug : Bool} {routes : List (Entry ε ω)} {x : Exchange ω}
    (h : firstRoute ndebug routes x.req = none) :
    ∃ page : HTTPServerResponse, page.status = 404 ∧
      routingEngine ndebug routes x = (.ok (), { x with res := page }) := by
  refine ⟨.stockReply .notFound, rfl, ?_⟩
  simp only [routingEngine, searchRoutes_eq, h, Option.map_none]

/-- **Dispatch.**  `Application::handle` has the effect of one flat composition: the global
middlewares, those of the first route that takes the request and its handler, which see the captures
of its match from no attributes on and no others; or a reply 404 inside the global middlewares.  The
request is taken as the global middlewares hand it on, and its route is that of `x` where they keep
the method and the path. -/
theorem handle_flat (ndebug : Bool)
    (app : Application (RequestHandler ε (Exchange ω)) (IMiddleware ε (Exchange ω)))
    (hglobal : ∀ m ∈ app.globalMiddlewares, ∀ x, (m x).AtMostOnce)
    (hroute : ∀ re ∈ app.routes, ∀ m ∈ re.routeMiddlewares, ∀ x, (m x).AtMostOnce)
    (x : Exchange ω) :
    let y := arriving app.globalMiddlewares x
    let found := firstRoute ndebug app.routes y.req
    (compose (app.globalMiddlewares ++ routeLayers ndebug y.req found)
        (fun x => some (routeHandler found x)) x =
      some (handle ndebug app x) ∧
    (∀ re, found = some re → ∃ route attrs, RouteImpl.new ndebug re.pattern = some route ∧
      route.matches y.req.path ∅ = (true, attrs) ∧ y.req.method ∈ methodTokens re.method ∧
      compose re.routeMiddlewares (fun z => some (re.handler z))
          { y with req := { y.req with ROUTE := attrs } } =
        some (routingEngine ndebug app.routes y)) ∧
    (found = none → ∃ page : HTTPServerResponse, page.status = 404 ∧
      routingEngine ndebug app.routes y = (.ok (), { y with res := page }))) ∧
    compose app.globalMiddlewares (fun z => some (routingEngine ndebug app.routes z)) x =
      some (handle ndebug app x) ∧
    (y.req.method = x.req.method → y.req.path = x.req.path →
      found = firstRoute ndebug app.routes x.req) := by
  intro y found
  have hrun : compose app.globalMiddlewares (fun z => some (routingEngine ndebug app.routes z)) x =
      some (handle ndebug app x) := run_compose _ hglobal x
  refine ⟨⟨?_, fun re hre => routingEngine_route hroute hre, routingEngine_notFound⟩, hrun,
    fun hmethod hpath => firstRoute_congr hmethod hpath app.routes⟩
  have hengine := routingEngine_compose ndebug hroute y
  have hcompose : compose app.globalMiddlewares
      (compose (routeLayers ndebug y.req found) fun x => some (routeHandler found x)) x =
        compose app.globalMiddlewares (fun x => some (routingEngine ndebug app.routes x)) x :=
    compose_congr hengine
  rw [compose_append, hcompose]
  exact hrun

/-- Writes its number on the way in and ten times the number on the way out. -/
def logged (number : Nat) : IMiddleware Unit (Exchange (List Nat)) :=
  fun x => .next { x with world := x.world ++ [number] }
    fun outcome x => .ret outcome { x with world := x.world ++ [10 * number] }

/-- Two routes for one path: the second one takes the request. -/
def loggedApp : Application (RequestHandler Unit (Exchange (List Nat)))
    (IMiddleware Unit (Exchange (List Nat))) where
  globalMiddlewares := [logged 1, logged 2]
  routes := [⟨str "POST", str "/a", fun x => (.ok (), x), []⟩,
    ⟨str "HEAD|GET", str "/a", fun x => (.ok (), { x with world := x.world ++ [0] }), [logged 3]⟩]
  namedRoutes := ∅

def loggedExchange : Exchange (List Nat) :=
  ⟨{ HTTPServerRequest.init with method := str "GET", path := str "/a" }, .init, []⟩

theorem loggedApp_flat :
    (compose (loggedApp.globalMiddlewares ++
        routeLayers false loggedExchange.req (loggedApp.routes[1]?))
        (fun x => some (routeHandler (loggedApp.routes[1]?) x)) loggedExchange =
      some (handle false loggedApp loggedExchange)) ∧
    (handle false loggedApp loggedExchange).2.world = [1, 2, 3, 0, 30, 20, 10] := by
  refine ⟨(handle_flat false loggedApp ?_ ?_ loggedExchange).1.1, by decide +kernel⟩
  · intro m hm x
    rcases List.mem_pair.mp hm with rfl | rfl
    · exact fun _ _ => trivial
    · exact fun _ _ => trivial
  · intro re hre m hm x
    rcases List.mem_pair.mp hre with rfl | rfl
    · cases hm
    · rw [List.mem_singleton.mp hm]
      exact fun _ _ => trivial

end Wsrv.Dispatch
