import Wsrv.Route
import Wsrv.Lib.EcmaSyntax

/-!
# Matching a path against a route

`RouteImpl::match` runs the expression that `makeRegexFromPattern` has written
over the whole path and stores the captures of the parameters.  The expression
is a text: `compile_makeRegex` says what it comes to where every sub-pattern is
a well-formed expression by itself, with the groups numbered across all of them.
-/

namespace Wsrv.Route

open Ecma (Node compile fullMatch)

/-! ## The source -/

/-- `get_clean_path`. -/
def getCleanPath (path : Str) : Str :=
  if path.getLast? = some '/'.toUInt8 then path else path ++ ['/'.toUInt8]

/-- The loop of `RouteImpl::match` over the elements; a group that took no part is empty. -/
def storeCaptures (results : Ecma.Captures UInt8) : List RouteElement → Dictionary → Dictionary
  | [], vars => vars
  | e :: es, vars =>
    if 0 < e.idx then
      let val := (results e.idx.toNat).getD []
      storeCaptures results es (if val ≠ [] then vars.insert e.name val else vars)
    else storeCaptures results es vars

/-- `RouteImpl::match`.  An expression that does not compile leaves `rx_` as it was made, which
matches nothing. -/
def RouteImpl.matchPath (route : RouteImpl) (path : Str) (vars : Dictionary) : Bool × Dictionary :=
  match (compile route.rx).bind fun rx => fullMatch rx path with
  | some results => (true, storeCaptures results route.elements vars)
  | none => (false, vars)

/-- `Route::matches`. -/
def RouteImpl.matches (route : RouteImpl) (path : Str) (vars : Dictionary) : Bool × Dictionary :=
  route.matchPath (getCleanPath path) vars

/-! ## The expression of a route -/

/-- The expression that stands for an element. -/
def subPattern (e : RouteElement) : Str := if e.pattern = [] then str "[^\\/]+" else e.pattern

/-- How many groups an element opens. -/
def groupsOf (e : RouteElement) : Nat :=
  (if e.name ≠ [] then 1 else 0) + Ecma.groupCount (subPattern e)

/-- What an element matches, with `r` for its sub-pattern, behind `n` groups. -/
def innerNode (n : Nat) (e : RouteElement) (r : Node UInt8) : Node UInt8 :=
  if e.name ≠ [] then .group (n + 1) (r.shift (n + 1)) else r.shift n

/-- The same with its slash. -/
def elementNode (n : Nat) (e : RouteElement) (r : Node UInt8) : Node UInt8 :=
  let segment := .seq (.seq .empty (innerNode n e r)) (.char (· == '/'.toUInt8))
  if e.optional then .rep 0 (some 1) true segment else segment

def elementNodes (n : Nat) : List (RouteElement × Node UInt8) → List (Node UInt8)
  | [] => []
  | (e, r) :: es => elementNode n e r :: elementNodes (n + groupsOf e) es

/-- The line up to the first element. -/
def rootNode : Node UInt8 := .seq (.seq .empty .lineBegin) (.char (· == '/'.toUInt8))

/-- The expression of the elements, each with what its sub-pattern comes to. -/
def routeNode (es : List (RouteElement × Node UInt8)) : Node UInt8 :=
  .seq ((elementNodes 0 es).foldl .seq rootNode) .lineEnd

/-- The text of a sub-pattern in its parentheses. -/
def innerText (e : RouteElement) : Str :=
  if e.name ≠ [] then str "(" ++ subPattern e ++ str ")" else str "(?:" ++ subPattern e ++ str ")"

/-- The text of an element. -/
def elementText (e : RouteElement) : Str :=
  if e.optional then str "(?:" ++ innerText e ++ str "\\/)?" else str "(?:" ++ innerText e ++ str "\\/)"

theorem joinPatterns_numberCaptures (n : Nat) (es : List RouteElement) :
    joinPatterns (numberCaptures n es).1 (numberCaptures n es).2 = es.flatMap elementText := by
  induction es generalizing n with
  | nil => rfl
  | cons e es ih =>
    rw [List.flatMap_cons, ← ih (if e.name ≠ [] then n + 1 else n), numberCaptures]
    by_cases hname : e.name = []
    · simp only [ne_eq, hname, not_true_eq_false, if_false, joinPatterns]
      simp [elementText, innerText, subPattern, hname]
    · simp only [ne_eq, hname, not_false_eq_true, if_true, joinPatterns]
      simp [elementText, innerText, subPattern, hname]

theorem makeRegex_text (es : List RouteElement) :
    (makeRegexFromPattern es).2 = str "^\\/" ++ es.flatMap elementText ++ str "$" := by
  rw [← joinPatterns_numberCaptures 1 es]
  rfl

/-- Between two elements of the expression: `f` is what has been read, with `n` groups. -/
structure Between (f : Ecma.Frame) (n : Nat) (st : Ecma.Scan) : Prop where
  settles : ∃ m ≤ n, st.settle = some ⟨.normal, f, [], n, m⟩
  noNumber : ∀ k, st.mode ≠ .backref k

/-- The sub-pattern in its parentheses is one atom. -/
theorem run_inner {e : RouteElement} {r : Node UInt8} (h : compile (subPattern e) = some r)
    (f : Ecma.Frame) (outer : List Ecma.Frame) {n m : Nat} (hm : m ≤ n) :
    ∃ m' ≤ n + groupsOf e,
      Ecma.Scan.run (innerText e) ⟨.normal, f, outer, n, m⟩ =
        some ⟨.normal, f.atom (innerNode n e r), outer, n + groupsOf e, m'⟩ := by
  have hne : subPattern e ≠ [] := by
    unfold subPattern
    split_ifs with he
    · decide
    · exact he
  by_cases hname : e.name = []
  · obtain ⟨m', hm', hrun⟩ := Ecma.run_plain h f outer n m
    have hcount : Ecma.groupCount (subPattern e) + n = n + groupsOf e := by
      simp [groupsOf, hname, Nat.add_comm]
    rw [hcount] at hm' hrun
    refine ⟨m', hm' hm, ?_⟩
    simp only [hname, ne_eq, not_true_eq_false, if_false, innerText, innerNode]
    exact hrun
  · obtain ⟨m', hm', hrun⟩ := Ecma.run_capture h hne f outer n m
    have hcount : Ecma.groupCount (subPattern e) + (n + 1) = n + groupsOf e := by
      simp only [groupsOf, ne_eq, hname, not_false_eq_true, if_true]
      omega
    rw [hcount] at hm' hrun
    refine ⟨m', hm' hm, ?_⟩
    simp only [hname, ne_eq, not_false_eq_true, if_true, innerText, innerNode]
    exact hrun

/-- **The text of an element is one term.** -/
theorem run_element {e : RouteElement} {r : Node UInt8} (h : compile (subPattern e) = some r)
    {f : Ecma.Frame} {n : Nat} {st : Ecma.Scan} (hst : Between f n st) :
    ∃ f' st', Between f' (n + groupsOf e) st' ∧ st.run (elementText e) = some st' ∧
      f'.node = .seq f.node (elementNode n e r) ∧ f'.alts = f.alts := by
  obtain ⟨⟨m, hm, hsettle⟩, hnumber⟩ := hst
  obtain ⟨m', hm', hinner⟩ := run_inner h (.fresh .plain) [f] hm
  have hopen : st.run (str "(?:") = some ⟨.normal, .fresh .plain, [f], n, m⟩ := by
    have hcons : str "(?:" = '('.toUInt8 :: str "?:" := rfl
    rw [hcons, Ecma.Scan.run_of_settle hsettle (by decide) fun k hk => absurd hk (hnumber k)]
    rfl
  generalize hsegment : Node.seq (.seq .empty (innerNode n e r)) (.char (· == '/'.toUInt8)) = segment
  have hrun : st.run (str "(?:" ++ innerText e ++ str "\\/)") =
      some ⟨.normal, f.atom segment, [], n + groupsOf e, m'⟩ := by
    rw [Ecma.Scan.run_append, Ecma.Scan.run_append, hopen, Option.bind_some, hinner,
      Option.bind_some, ← hsegment]
    rfl
  cases hopt : e.optional with
  | true =>
    have htext : elementText e = (str "(?:" ++ innerText e ++ str "\\/)") ++ str "?" := by
      rw [elementText, hopt, if_pos rfl, List.append_assoc, List.append_assoc]
      rfl
    refine ⟨(f.atom segment).repeated 0 (some 1) true segment,
      ⟨.quantifier 0 (some 1), f.atom segment, [], n + groupsOf e, m'⟩,
      ⟨⟨m', hm', rfl⟩, fun k hk => nomatch hk⟩, ?_, ?_, rfl⟩
    · rw [htext, Ecma.Scan.run_append, hrun]
      rfl
    · simp only [elementNode, hsegment, hopt, if_true]
      rfl
  | false =>
    refine ⟨f.atom segment, ⟨.normal, f.atom segment, [], n + groupsOf e, m'⟩,
      ⟨⟨m', hm', rfl⟩, fun k hk => nomatch hk⟩, ?_, ?_, rfl⟩
    · rw [elementText, hopt, if_neg (by decide), hrun]
    · simp only [elementNode, hsegment, hopt, Bool.false_eq_true, if_false]
      rfl

/-- The sub-patterns of the elements are well formed, and `rs` are what they come to. -/
def Compiled (es : List (RouteElement × Node UInt8)) : Prop :=
  ∀ er ∈ es, compile (subPattern er.1) = some er.2

theorem run_elements {es : List (RouteElement × Node UInt8)} (h : Compiled es) {f : Ecma.Frame}
    {n : Nat} {st : Ecma.Scan} (hst : Between f n st) :
    ∃ f' n' st', Between f' n' st' ∧ st.run (es.flatMap fun er => elementText er.1) = some st' ∧
      f'.node = (elementNodes n es).foldl .seq f.node ∧ f'.alts = f.alts := by
  induction es generalizing f n st with
  | nil => exact ⟨f, n, st, hst, rfl, rfl, rfl⟩
  | cons er es ih =>
    obtain ⟨e, r⟩ := er
    obtain ⟨f₁, st₁, hbetween, hrun, hnode, halts⟩ := run_element (h (e, r) List.mem_cons_self) hst
    obtain ⟨f₂, n₂, st₂, hbetween', hrun', hnode', halts'⟩ :=
      ih (fun er her => h er (List.mem_cons_of_mem _ her)) hbetween
    refine ⟨f₂, n₂, st₂, hbetween', ?_, ?_, halts'.trans halts⟩
    · rw [List.flatMap_cons, Ecma.Scan.run_append, hrun, Option.bind_some, hrun']
    · rw [hnode', hnode, elementNodes, List.foldl_cons]

/-- **The expression of a route** whose sub-patterns are well formed by themselves. -/
theorem compile_makeRegex {es : List (RouteElement × Node UInt8)} (h : Compiled es) :
    compile (makeRegexFromPattern (es.map Prod.fst)).2 = some (routeNode es) := by
  have hroot : Ecma.Scan.start.run (str "^\\/") =
      some ⟨.normal, ⟨.top, none, .seq .empty .lineBegin, some (.char (· == '/'.toUInt8))⟩, [], 0, 0⟩ :=
    rfl
  obtain ⟨f, n, st, ⟨⟨m, hm, hsettle⟩, hnumber⟩, hrun, hnode, halts⟩ := @run_elements es h
    ⟨.top, none, .seq .empty .lineBegin, some (.char (· == '/'.toUInt8))⟩ 0
    ⟨.normal, ⟨.top, none, .seq .empty .lineBegin, some (.char (· == '/'.toUInt8))⟩, [], 0, 0⟩
    ⟨⟨0, Nat.le_refl 0, rfl⟩, fun k hk => nomatch hk⟩
  have hend : st.run (str "$") = some ⟨.normal, f.done .lineEnd, [], n, m⟩ := by
    have hcons : str "$" = ['$'.toUInt8] := rfl
    rw [hcons, Ecma.Scan.run_of_settle hsettle (by decide) fun k hk => absurd hk (hnumber k)]
    rfl
  have htext : Ecma.scan (makeRegexFromPattern (es.map Prod.fst)).2 =
      some ⟨.normal, f.done .lineEnd, [], n, m⟩ := by
    rw [makeRegex_text, List.flatMap_map, Ecma.scan, Ecma.Scan.run_append, Ecma.Scan.run_append,
      hroot, Option.bind_some, hrun, Option.bind_some, hend]
    rfl
  have hdisj : (f.done .lineEnd).disjunction = .seq f.node .lineEnd := by
    have hnone : (f.done .lineEnd).alts = none := halts
    unfold Ecma.Frame.disjunction
    rw [hnone]
    rfl
  rw [compile, htext, Option.bind_some, Ecma.Scan.result, if_pos ⟨rfl, hm⟩, hdisj, hnode]
  rfl

/-! ## The match of a route -/

open Ecma (Place runs runsAll)

/-- The matches that end with the path. -/
def ending (ys : List (Place UInt8)) : List (Place UInt8) := ys.filter fun y => y.rest.isEmpty

theorem runs_lineEnd (r : Node UInt8) (x : Place UInt8) :
    runs (.seq r .lineEnd) x = ending (runs r x) := by
  have hend : ∀ ys : List (Place UInt8), ys.flatMap (runs .lineEnd) = ending ys := by
    intro ys
    induction ys with
    | nil => rfl
    | cons y ys ih =>
      rw [List.flatMap_cons, ih, ending, ending, List.filter_cons, runs]
      cases y.rest <;> rfl
  rw [runs, hend]

/-- The place behind the slash at the front of a path. -/
def behindRoot (rest : Str) : Place UInt8 := (Place.start ('/'.toUInt8 :: rest)).advance 1

/-- **A route matches** with the first of the matches of its elements that ends with the path. -/
theorem fullMatch_route (es : List (RouteElement × Node UInt8)) (rest : Str) :
    fullMatch (routeNode es) ('/'.toUInt8 :: rest) =
      ((ending (runsAll (elementNodes 0 es) (behindRoot rest))).map Place.caps).head? := by
  have hroot : runs rootNode (.start ('/'.toUInt8 :: rest)) = [behindRoot rest] := by
    simp [rootNode, runs, Place.start, behindRoot]
  have hfirst : ∀ ys : List (Place UInt8),
      ((ending ys).find? fun y => y.rest.isEmpty) = (ending ys).head? := by
    intro ys
    unfold ending
    rw [List.find?_filter, List.head?_filter]
    congr 1
    funext y
    rw [Bool.eq_iff_iff]
    simp
  rw [fullMatch, routeNode, runs_lineEnd, Ecma.runs_foldl_seq, hroot, List.flatMap_cons,
    List.flatMap_nil, List.append_nil, hfirst, List.head?_map]

end Wsrv.Route
