import Wsrv.Text

/-!
# Route patterns

`RouteImpl::parse` reads a pattern like `/user/{id:\d+}/{action}?` into elements
with a state machine over the characters; `makeRegexFromPattern` numbers the
parameters and writes the regular expression that `rx_` compiles.

The constructor calls `parse` inside `assert`, so with `NDEBUG` defined the
pattern is never parsed.  `ndebug_same_iff`: for the patterns that parse, the
two builds agree exactly when parsing produces no element at all, which is the
root pattern or a first element `{name:` that is never closed.
-/

namespace Wsrv.Route

structure RouteElement where
  name : Str
  pattern : Str
  optional : Bool
  idx : Int
  deriving DecidableEq, Repr

/-! ## `RouteImpl::parse` -/

inductive State
  | token | element | param | regex
  deriving DecidableEq, Repr

/-- The local variables of `parse`, and `elements_`. -/
structure ParseState where
  state : State
  name : Str
  pat : Str
  isOptional : Bool
  idx : Nat
  elements : List RouteElement
  deriving DecidableEq, Repr

def ParseState.init : ParseState := ⟨.element, [], [], false, 0, []⟩

/-- One turn of the loop in the state `Token`; `last` is `cursor == end`. -/
def tokenStep (last : Bool) (c : UInt8) (ps : ParseState) : Option ParseState :=
  if c = '/'.toUInt8 ∨ last then
    let e : RouteElement :=
      if ps.name = [] then ⟨ps.name, ps.pat, ps.isOptional, -1⟩
      else ⟨ps.name, ps.pat, ps.isOptional, ps.idx + 1⟩
    some { ps with
      elements := ps.elements ++ [e]
      idx := if ps.name = [] then ps.idx else ps.idx + 1
      name := [], pat := [], isOptional := false, state := .element }
  else if c = '?'.toUInt8 then some { ps with isOptional := true }
  else none

def paramStep (c : UInt8) (ps : ParseState) : Option ParseState :=
  if c = ':'.toUInt8 then some { ps with state := .regex }
  else if c = '}'.toUInt8 then some { ps with state := .token }
  else if isalnum c ∨ c = '_'.toUInt8 ∨ c = '-'.toUInt8 then some { ps with name := ps.name ++ [c] }
  else none

def regexStep (c : UInt8) (ps : ParseState) : ParseState :=
  if c = '}'.toUInt8 then { ps with state := .token } else { ps with pat := ps.pat ++ [c] }

def elementStep (last : Bool) (c : UInt8) (ps : ParseState) : Option ParseState :=
  if c = '{'.toUInt8 then
    if ps.pat ≠ [] then none else some { ps with state := .param }
  else if last then
    some { ps with elements := ps.elements ++ [⟨ps.name, ps.pat, ps.isOptional, -1⟩] }
  else if c = '/'.toUInt8 then
    -- the cursor moves back, and the slash is read again as the end of a token
    tokenStep last c { ps with state := .token }
  else some { ps with pat := ps.pat ++ [c] }

def parseStep (last : Bool) (c : UInt8) (ps : ParseState) : Option ParseState :=
  match ps.state with
  | .token => tokenStep last c ps
  | .param => paramStep c ps
  | .regex => some (regexStep c ps)
  | .element => elementStep last c ps

def parseLoop : Str → ParseState → Option ParseState
  | [], ps => some ps
  | c :: rest, ps => (parseStep rest.isEmpty c ps).bind (parseLoop rest)

/-- The pattern without its leading slash. -/
def omitLeading (pattern : Str) : Str :=
  if pattern.head? = some '/'.toUInt8 then pattern.tail else pattern

/-- `RouteImpl::parse`: the elements, or `none` where it returns false. -/
def parse (pattern : Str) : Option (List RouteElement) :=
  (parseLoop (omitLeading pattern) .init).map ParseState.elements

/-! ## `RouteImpl::makeRegexFromPattern` -/

/-- The first loop: the sub-pattern of every element, and the capture index of the parameters. -/
def numberCaptures : Nat → List RouteElement → List RouteElement × List Str
  | _, [] => ([], [])
  | captureIdx, e :: es =>
    let pattern := if e.pattern = [] then str "[^\\/]+" else e.pattern
    if e.name ≠ [] then
      let (es, ps) := numberCaptures (captureIdx + 1) es
      ({ e with idx := captureIdx } :: es, (str "(" ++ pattern ++ str ")") :: ps)
    else
      let (es, ps) := numberCaptures captureIdx es
      (e :: es, (str "(?:" ++ pattern ++ str ")") :: ps)

/-- The second loop. -/
def joinPatterns : List RouteElement → List Str → Str
  | e :: es, p :: ps =>
    (if e.optional then str "(?:" ++ p ++ str "\\/)?" else str "(?:" ++ p ++ str "\\/)") ++
      joinPatterns es ps
  | _, _ => []

/-- The elements with their capture indices, and the expression given to `rx_.assign`. -/
def makeRegexFromPattern (elements : List RouteElement) : List RouteElement × Str :=
  let (es, ps) := numberCaptures 1 elements
  (es, str "^\\/" ++ joinPatterns es ps ++ str "$")

/-! ## `RouteImpl` -/

structure RouteImpl where
  elements : List RouteElement
  pattern : Str
  /-- The source of the compiled expression. -/
  rx : Str
  deriving DecidableEq, Repr

/-- The pattern with a final slash.  The source asks for `pattern.back()`, which is undefined for the
empty pattern. -/
def closePattern (pattern : Str) : Str :=
  if pattern.getLast? = some '/'.toUInt8 then pattern else pattern ++ ['/'.toUInt8]

/-- The constructor.  With `NDEBUG` the argument of `assert` is not evaluated; without it a
pattern that does not parse ends the program, `none`. -/
def RouteImpl.new (ndebug : Bool) (pattern : Str) : Option RouteImpl :=
  let pattern := closePattern pattern
  let parsed := if ndebug then some [] else parse pattern
  parsed.map fun elements =>
    let (es, rx) := makeRegexFromPattern elements
    ⟨es, pattern, rx⟩

/-- `RouteImpl::url`.  A mandatory parameter without a value is left out: the source has
`assert(1)` there. -/
def RouteImpl.url (route : RouteImpl) (params : Dictionary) (relative : Bool) : Str :=
  go (if relative then [] else ['/'.toUInt8]) route.elements
where
  go (res : Str) : List RouteElement → Str
    | [] => res
    | e :: es =>
      if e.name = [] then go (res ++ e.pattern ++ ['/'.toUInt8]) es
      else match params[e.name]? with
        | none => if e.optional then res else go res es
        | some v => go (res ++ v ++ ['/'.toUInt8]) es

/-! ## Which patterns have no element -/

/-- A character a parameter name may have. -/
abbrev isNameChar (c : UInt8) : Prop := isalnum c ∨ c = '_'.toUInt8 ∨ c = '-'.toUInt8

/-- The whole pattern is one parameter whose regular expression is never closed. -/
def Unclosed (body : Str) : Prop :=
  ∃ name rest, body = '{'.toUInt8 :: (name ++ ':'.toUInt8 :: rest) ∧
    (∀ c ∈ name, isNameChar c) ∧ '}'.toUInt8 ∉ rest

theorem not_isNameChar_colon : ¬ isNameChar ':'.toUInt8 := by decide

theorem not_isNameChar_brace : ¬ isNameChar '}'.toUInt8 := by decide

theorem parseLoop_cons (c : UInt8) (rest : Str) (ps : ParseState) :
    parseLoop (c :: rest) ps = (parseStep rest.isEmpty c ps).bind (parseLoop rest) := rfl

/-- No step takes an element away. -/
theorem parseStep_elements {last : Bool} {c : UInt8} {ps ps' : ParseState}
    (h : parseStep last c ps = some ps') (hne : ps.elements ≠ []) : ps'.elements ≠ [] := by
  have token : ∀ q : ParseState, q.elements ≠ [] → tokenStep last c q = some ps' →
      ps'.elements ≠ [] := by
    intro q hq ht
    unfold tokenStep at ht
    split at ht
    · cases ht; simp
    · split at ht
      · cases ht; exact hq
      · cases ht
  unfold parseStep at h
  split at h
  · exact token ps hne h
  · unfold paramStep at h
    split at h
    · cases h; exact hne
    · split at h
      · cases h; exact hne
      · split at h
        · cases h; exact hne
        · cases h
  · cases h
    unfold regexStep
    split <;> exact hne
  · unfold elementStep at h
    split at h
    · split at h
      · cases h
      · cases h; exact hne
    · split at h
      · cases h; simp
      · split at h
        · exact token { ps with state := .token } hne h
        · cases h; exact hne

theorem parseLoop_elements {s : Str} {ps ps' : ParseState} (h : parseLoop s ps = some ps')
    (hne : ps.elements ≠ []) : ps'.elements ≠ [] := by
  induction s generalizing ps with
  | nil => cases h; exact hne
  | cons c rest ih =>
    rw [parseLoop_cons] at h
    obtain ⟨q, hq, hloop⟩ := Option.bind_eq_some_iff.mp h
    exact ih hloop (parseStep_elements hq hne)

/-- A slash read as a token ends an element. -/
theorem tokenStep_end {last : Bool} {c : UInt8} {ps ps' : ParseState}
    (hc : c = '/'.toUInt8 ∨ last = true) (h : tokenStep last c ps = some ps') :
    ps'.elements ≠ [] := by
  unfold tokenStep at h
  rw [if_pos hc] at h
  cases h
  simp

/-- What follows a closed parameter ends in an element. -/
theorem parseLoop_token {s : Str} {ps ps' : ParseState} (hs : s ≠ []) (hst : ps.state = .token)
    (h : parseLoop s ps = some ps') : ps'.elements ≠ [] := by
  induction s generalizing ps with
  | nil => exact absurd rfl hs
  | cons c rest ih =>
    rw [parseLoop_cons] at h
    obtain ⟨q, hq, hloop⟩ := Option.bind_eq_some_iff.mp h
    simp only [parseStep, hst] at hq
    by_cases hc : c = '/'.toUInt8 ∨ rest.isEmpty = true
    · exact parseLoop_elements hloop (tokenStep_end hc hq)
    · have hrest : rest ≠ [] := fun e => hc (Or.inr (by simp [e]))
      unfold tokenStep at hq
      rw [if_neg hc] at hq
      split at hq
      · cases hq
        refine ih hrest ?_ hloop
        exact hst
      · cases hq

/-- A literal ends in an element. -/
theorem parseLoop_element {s : Str} {ps ps' : ParseState} (hs : s ≠ []) (hst : ps.state = .element)
    (hlit : ps.pat ≠ [] ∨ s.head? ≠ some '{'.toUInt8) (h : parseLoop s ps = some ps') :
    ps'.elements ≠ [] := by
  induction s generalizing ps with
  | nil => exact absurd rfl hs
  | cons c rest ih =>
    rw [parseLoop_cons] at h
    obtain ⟨q, hq, hloop⟩ := Option.bind_eq_some_iff.mp h
    simp only [parseStep, hst, elementStep] at hq
    split at hq
    · rename_i hbrace
      rcases hlit with hp | hh
      · rw [if_pos hp] at hq
        cases hq
      · exact absurd (by rw [List.head?_cons, hbrace]) hh
    · split at hq
      · cases hq
        exact parseLoop_elements hloop (by simp)
      · rename_i hlast
        split at hq
        · rename_i hslash
          exact parseLoop_elements hloop (tokenStep_end (Or.inl hslash) hq)
        · cases hq
          refine ih (by simpa using hlast) ?_ (Or.inl ?_) hloop
          · rfl
          · simp

/-- An expression that is not closed swallows the rest; one that is closed leaves a token. -/
theorem parseLoop_regex {s : Str} {ps ps' : ParseState} (hst : ps.state = .regex)
    (hlast : s.getLast? = some '/'.toUInt8) (hnil : ps.elements = [])
    (h : parseLoop s ps = some ps') : ps'.elements = [] ↔ '}'.toUInt8 ∉ s := by
  induction s generalizing ps with
  | nil => simp at hlast
  | cons c rest ih =>
    rw [parseLoop_cons] at h
    obtain ⟨q, hq, hloop⟩ := Option.bind_eq_some_iff.mp h
    simp only [parseStep, hst, regexStep, Option.some.injEq] at hq
    by_cases hc : c = '}'.toUInt8
    · rw [if_pos hc] at hq
      have hrest : rest ≠ [] := by
        rintro rfl
        rw [hc] at hlast
        exact absurd hlast (by decide)
      have hne := parseLoop_token hrest (by rw [← hq]) hloop
      simp [hc, hne]
    · rw [if_neg hc] at hq
      cases rest with
      | nil =>
        cases hloop
        rw [← hq]
        simp [hnil, Ne.symm hc]
      | cons d rest =>
        rw [List.getLast?_cons_cons] at hlast
        rw [ih (by rw [← hq]) hlast (by rw [← hq]; exact hnil) hloop]
        simp [Ne.symm hc]

/-- From inside the braces: no element comes out exactly when the name is followed by an
expression that is not closed. -/
theorem parseLoop_param {s : Str} {ps ps' : ParseState} (hst : ps.state = .param)
    (hlast : s.getLast? = some '/'.toUInt8) (hnil : ps.elements = [])
    (h : parseLoop s ps = some ps') :
    ps'.elements = [] ↔ ∃ name rest, s = name ++ ':'.toUInt8 :: rest ∧
      (∀ c ∈ name, isNameChar c) ∧ '}'.toUInt8 ∉ rest := by
  induction s generalizing ps with
  | nil => simp at hlast
  | cons c rest ih =>
    rw [parseLoop_cons] at h
    obtain ⟨q, hq, hloop⟩ := Option.bind_eq_some_iff.mp h
    simp only [parseStep, hst, paramStep] at hq
    have hrest : c ≠ '/'.toUInt8 → rest.getLast? = some '/'.toUInt8 := by
      intro hc
      cases rest with
      | nil => simp at hlast; exact absurd hlast hc
      | cons d rest => simpa using hlast
    split at hq
    · rename_i hc
      cases hq
      have hregex : ps'.elements = [] ↔ '}'.toUInt8 ∉ rest := by
        refine parseLoop_regex ?_ (hrest (by rw [hc]; decide)) ?_ hloop
        · rfl
        · exact hnil
      rw [hregex]
      constructor
      · intro hno
        exact ⟨[], rest, by rw [hc]; rfl, by simp, hno⟩
      · rintro ⟨name, rest', e, hname, hno⟩
        cases name with
        | nil =>
          cases e
          exact hno
        | cons d name =>
          cases e
          exact absurd (hname _ (List.mem_cons_self ..)) (hc ▸ not_isNameChar_colon)
    · rename_i hcolon
      split at hq
      · rename_i hc
        cases hq
        have hr := hrest (by rw [hc]; decide)
        have hne := parseLoop_token (by rintro rfl; simp at hr) rfl hloop
        refine ⟨fun h => absurd h hne, ?_⟩
        rintro ⟨name, rest', e, hname, _⟩
        cases name with
        | nil => cases e; exact absurd rfl hcolon
        | cons d name =>
          cases e
          exact absurd (hname _ (List.mem_cons_self ..)) (hc ▸ not_isNameChar_brace)
      · split at hq
        · rename_i hname
          cases hq
          have hr := hrest (by rintro rfl; exact absurd hname (by decide))
          have hparam : ps'.elements = [] ↔ ∃ name rest', rest = name ++ ':'.toUInt8 :: rest' ∧
              (∀ c ∈ name, isNameChar c) ∧ '}'.toUInt8 ∉ rest' := by
            refine ih ?_ hr ?_ hloop
            · rfl
            · exact hnil
          rw [hparam]
          constructor
          · rintro ⟨name, rest', rfl, hall, hno⟩
            refine ⟨c :: name, rest', rfl, ?_, hno⟩
            rintro d hd
            rcases List.mem_cons.mp hd with rfl | hd
            · exact hname
            · exact hall d hd
          · rintro ⟨name, rest', e, hall, hno⟩
            cases name with
            | nil => cases e; exact absurd rfl hcolon
            | cons d name =>
              cases e
              exact ⟨name, rest', rfl, fun x hx => hall x (List.mem_cons_of_mem _ hx), hno⟩
        · cases hq

/-- **A pattern without elements** is empty after its leading slash, or is never closed. -/
theorem parse_nil_iff {pattern : Str} {es : List RouteElement}
    (hlast : pattern.getLast? = some '/'.toUInt8) (h : parse pattern = some es) :
    es = [] ↔ omitLeading pattern = [] ∨ Unclosed (omitLeading pattern) := by
  obtain ⟨ps, hps, rfl⟩ := Option.map_eq_some_iff.mp h
  have hbody : omitLeading pattern ≠ [] → (omitLeading pattern).getLast? = some '/'.toUInt8 := by
    unfold omitLeading
    cases pattern with
    | nil => simp at hlast
    | cons x pattern =>
      split
      · intro hne
        rw [List.tail_cons] at hne ⊢
        rwa [List.getLast?_cons_of_ne_nil hne] at hlast
      · exact fun _ => hlast
  revert hps hbody
  generalize omitLeading pattern = body
  intro hps hbody
  cases body with
  | nil => cases hps; simp [ParseState.init]
  | cons c rest =>
    have hl := hbody (by simp)
    by_cases hc : c = '{'.toUInt8
    · subst hc
      have hloop : parseLoop rest { ParseState.init with state := .param } = some ps := hps
      have hrest : rest.getLast? = some '/'.toUInt8 := by
        cases rest with
        | nil => exact absurd hl (by decide)
        | cons d rest => simpa using hl
      rw [parseLoop_param rfl hrest rfl hloop]
      simp [Unclosed]
    · have hne := parseLoop_element (by simp) rfl (Or.inr (by simpa using hc)) hps
      refine ⟨fun h => absurd h hne, ?_⟩
      rintro (h | ⟨name, rest', e, _⟩)
      · cases h
      · cases e; exact absurd rfl hc

/-! ## The two builds -/

theorem closePattern_getLast (pattern : Str) :
    (closePattern pattern).getLast? = some '/'.toUInt8 := by
  unfold closePattern
  split
  · assumption
  · simp

theorem makeRegexFromPattern_nil_iff (es : List RouteElement) :
    makeRegexFromPattern es = makeRegexFromPattern [] ↔ es = [] := by
  constructor
  · intro h
    cases es with
    | nil => rfl
    | cons e es =>
      have := congrArg (fun r => r.1.length) h
      simp only [makeRegexFromPattern, numberCaptures] at this
      split at this <;> simp at this
  · rintro rfl
    rfl

/-- **The build without assertions** makes the same route as the build with them, for a pattern
that `parse` accepts, if and only if the pattern has no elements: it is the root, or one
parameter that is never closed. -/
theorem ndebug_same_iff (pattern : Str) (h : (parse (closePattern pattern)).isSome = true) :
    RouteImpl.new true pattern = RouteImpl.new false pattern ↔
      omitLeading (closePattern pattern) = [] ∨ Unclosed (omitLeading (closePattern pattern)) := by
  obtain ⟨es, hes⟩ := Option.isSome_iff_exists.mp h
  rw [← parse_nil_iff (closePattern_getLast pattern) hes, ← makeRegexFromPattern_nil_iff]
  simp only [RouteImpl.new, hes, ↓reduceIte, Bool.false_eq_true, Option.map_some, Option.some.injEq,
    RouteImpl.mk.injEq, true_and]
  rw [Prod.ext_iff]
  constructor
  · rintro ⟨h1, h2⟩
    exact ⟨h1.symm, h2.symm⟩
  · rintro ⟨h1, h2⟩
    exact ⟨h1.symm, h2.symm⟩

theorem ndebug_user_differs :
    (parse (closePattern (str "/user/{id}"))).isSome = true ∧
      (RouteImpl.new false (str "/user/{id}")).map RouteImpl.rx =
        some (str "^\\/(?:(?:user)\\/)(?:([^\\/]+)\\/)$") ∧
      (RouteImpl.new true (str "/user/{id}")).map RouteImpl.rx = some (str "^\\/$") ∧
      RouteImpl.new true (str "/user/{id}") ≠ RouteImpl.new false (str "/user/{id}") := by
  decide

/-- The root route is the same in both builds, and a route with a literal part is not. -/
theorem ndebug_root_same :
    RouteImpl.new true (str "/") = RouteImpl.new false (str "/") ∧
      RouteImpl.new true (str "/user") ≠ RouteImpl.new false (str "/user") := by
  refine ⟨(ndebug_same_iff (str "/") (by decide)).mpr (Or.inl (by decide)), fun h => ?_⟩
  rcases (ndebug_same_iff (str "/user") (by decide)).mp h with h | ⟨name, rest, h, _⟩
  · exact absurd h (by decide)
  · exact absurd (congrArg List.head? h) (by simp only [List.head?_cons]; decide)

end Wsrv.Route
