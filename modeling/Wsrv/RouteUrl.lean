import Wsrv.RouteSegments

/-!
# Generating the URL of a route

`RouteImpl::url` writes the segments of a route from a dictionary, and returns at
the first optional parameter without a value.  `url_inverts_iff` says when the
route matches what it has written and captures the same values: nothing but
optional parameters may stand behind that parameter.
-/

namespace Wsrv.Route

/-- The element is an optional parameter. -/
def PathElement.isOptional : PathElement → Bool
  | .literal _ => false
  | .param _ optional => optional

/-- The names of the parameters. -/
def Pattern.names (p : Pattern) : List Str := p.elements.filterMap PathElement.name?

/-- The dictionary has a segment for every mandatory parameter and for the leftmost of the optional
ones. -/
structure Supplied (params : Dictionary) (es : List PathElement) : Prop where
  segment : ∀ name optional value, .param name optional ∈ es → params[name.text]? = some value →
    IsSegment value
  mandatory : ∀ name, .param name false ∈ es → params[name.text]? ≠ none
  leftmost : ∀ pre name post, es = pre ++ .param name true :: post → params[name.text]? = none →
    ∀ name', .param name' true ∈ post → params[name'.text]? = none

/-- The route matches the URL and captures the values that the URL was made from. -/
def Inverts (p : Pattern) (params : Dictionary) : Prop :=
  (p.route.matches (p.route.url params false) ∅).1 = true ∧
    ∀ name value, (p.route.matches (p.route.url params false) ∅).2[name]? = some value ↔
      name ∈ p.names ∧ params[name]? = some value

/-- Behind an optional parameter without a value there are only optional parameters. -/
def Trailing (params : Dictionary) (es : List PathElement) : Prop :=
  ∀ pre name post, es = pre ++ .param name true :: post → params[name.text]? = none →
    ∀ e ∈ post, e.isOptional = true

/-! ## The segments of the URL -/

/-- The segments that `url` writes. -/
def urlSegments (params : Dictionary) : List PathElement → List Str
  | [] => []
  | .literal w :: es => w.text :: urlSegments params es
  | .param name optional :: es =>
    match params[name.text]? with
    | none => if optional then [] else urlSegments params es
    | some value => value :: urlSegments params es

theorem url_go (params : Dictionary) (es : List PathElement) (k : Nat) (res : Str) :
    RouteImpl.url.go params res (routeElements k es) = res ++ closed (urlSegments params es) := by
  induction es generalizing k res with
  | nil => simp [routeElements, RouteImpl.url.go, urlSegments, closed]
  | cons e es ih =>
    cases e with
    | literal w =>
      rw [routeElements, RouteImpl.url.go, if_pos rfl, ih, urlSegments, closed_cons]
      simp
    | param name optional =>
      rw [routeElements, RouteImpl.url.go, if_neg name.ne_nil, urlSegments]
      cases params[name.text]? with
      | none => cases optional <;> simp [ih, closed]
      | some value =>
        simp only [ih, closed_cons]
        simp

theorem url_eq (p : Pattern) (params : Dictionary) :
    p.route.url params false = '/'.toUInt8 :: closed (urlSegments params p.elements) :=
  url_go params p.elements 1 ['/'.toUInt8]

theorem getCleanPath_closed (segs : List Str) :
    getCleanPath ('/'.toUInt8 :: closed segs) = '/'.toUInt8 :: closed segs := by
  refine if_pos ?_
  induction segs using List.reverseRecOn with
  | nil => rfl
  | append_singleton segs s _ =>
    have hend : closed (segs ++ [s]) = closed segs ++ s ++ ['/'.toUInt8] := by simp [closed]
    rw [hend, ← List.cons_append, List.getLast?_concat]

theorem Supplied.tail {params : Dictionary} {e : PathElement} {es : List PathElement}
    (h : Supplied params (e :: es)) : Supplied params es where
  segment name optional value hmem := h.segment name optional value (List.mem_cons_of_mem _ hmem)
  mandatory name hmem := h.mandatory name (List.mem_cons_of_mem _ hmem)
  leftmost pre name post heq := h.leftmost (e :: pre) name post (by rw [heq, List.cons_append])

theorem urlSegments_segments {params : Dictionary} {es : List PathElement} (h : Supplied params es) :
    ∀ s ∈ urlSegments params es, IsSegment s := by
  induction es with
  | nil => simp [urlSegments]
  | cons e es ih =>
    cases e with
    | literal w =>
      have hw : '/'.toUInt8 ∉ w.text := fun hm => (isNameChar_plain (w.chars _ hm)).2.2.1 rfl
      exact List.forall_mem_cons.mpr ⟨⟨w.ne_nil, hw⟩, ih h.tail⟩
    | param name optional =>
      rw [urlSegments]
      cases hval : params[name.text]? with
      | some value =>
        exact List.forall_mem_cons.mpr ⟨h.segment name optional value List.mem_cons_self hval, ih h.tail⟩
      | none =>
        cases optional with
        | true => simp
        | false => simpa using ih h.tail

/-! ## Where nothing but optional parameters follows -/

/-- The choice the URL was made from. -/
def given (params : Dictionary) : List PathElement → List (Option Str)
  | [] => []
  | .literal w :: es => some w.text :: given params es
  | .param name _ :: es => params[name.text]? :: given params es

theorem Trailing.tail {params : Dictionary} {e : PathElement} {es : List PathElement}
    (h : Trailing params (e :: es)) : Trailing params es :=
  fun pre name post heq => h (e :: pre) name post (by rw [heq, List.cons_append])

/-- Without segments every element is left out. -/
theorem choices_nil {params : Dictionary} {es : List PathElement}
    (h : ∀ e ∈ es, e.isOptional = true)
    (hnone : ∀ name, .param name true ∈ es → params[name.text]? = none) :
    (choices es []).head? = some (given params es) := by
  induction es with
  | nil => rfl
  | cons e es ih =>
    obtain ⟨he, hes⟩ := List.forall_mem_cons.mp h
    cases e with
    | literal w => cases he
    | param name optional =>
      obtain rfl : optional = true := he
      rw [choices, if_pos rfl, List.head?_map,
        ih hes fun name hmem => hnone name (List.mem_cons_of_mem _ hmem), given,
        hnone name List.mem_cons_self]
      rfl

theorem choices_url {params : Dictionary} {es : List PathElement} (h : Supplied params es)
    (ht : Trailing params es) :
    (choices es (urlSegments params es)).head? = some (given params es) := by
  induction es with
  | nil => rfl
  | cons e es ih =>
    have htail := ih h.tail ht.tail
    cases e with
    | literal w =>
      rw [urlSegments, choices, if_pos rfl, List.head?_map, htail, given]
      rfl
    | param name optional =>
      rw [urlSegments]
      cases hval : params[name.text]? with
      | some value =>
        rw [choices, List.head?_append, List.head?_map, htail, given, hval]
        rfl
      | none =>
        cases optional with
        | false => exact absurd hval (h.mandatory name List.mem_cons_self)
        | true =>
          exact choices_nil (List.forall_mem_cons.mpr ⟨rfl, ht [] name es rfl hval⟩) fun name' hmem =>
            (List.mem_cons.mp hmem).elim (fun heq => by cases heq; exact hval)
              fun hmem => h.leftmost [] name es rfl hval name' hmem

theorem mem_captured_given (params : Dictionary) (es : List PathElement) (name value : Str) :
    (name, value) ∈ captured es (given params es) ↔
      name ∈ es.filterMap PathElement.name? ∧ params[name]? = some value := by
  induction es with
  | nil => simp [captured]
  | cons e es ih =>
    cases e with
    | literal w => exact ih
    | param name' optional =>
      have hnames : (PathElement.param name' optional :: es).filterMap PathElement.name? =
          name'.text :: es.filterMap PathElement.name? := rfl
      rw [given, hnames, List.mem_cons]
      cases hval : params[name'.text]? with
      | none =>
        have hskip : captured (.param name' optional :: es) (none :: given params es) =
            captured es (given params es) := rfl
        rw [hskip, ih]
        refine and_congr_left fun hv => ⟨.inr, fun hname => hname.resolve_left ?_⟩
        rintro rfl
        rw [hval] at hv
        cases hv
      | some v =>
        rw [captured, List.mem_cons, ih, Prod.mk.injEq]
        constructor
        · rintro (⟨rfl, rfl⟩ | ⟨hname, hv⟩)
          · exact ⟨.inl rfl, hval⟩
          · exact ⟨.inr hname, hv⟩
        · rintro ⟨rfl | hname, hv⟩
          · exact .inl ⟨rfl, Option.some.inj (hv.symm.trans hval)⟩
          · exact .inr ⟨hname, hv⟩

/-! ## Where something else follows -/

/-- The choice fills the parameters that have a value, and no others. -/
def Agrees (params : Dictionary) : List PathElement → List (Option Str) → Prop
  | .param name _ :: es, c :: cs => (c = none ↔ params[name.text]? = none) ∧ Agrees params es cs
  | _ :: es, _ :: cs => Agrees params es cs
  | _, _ => True

theorem agrees_of_captured {params : Dictionary} {es : List PathElement} {segs : List Str}
    {cs : List (Option Str)} (hcs : Chooses es segs cs)
    (hnodup : (es.filterMap PathElement.name?).Nodup)
    (h : ∀ name value, (name, value) ∈ captured es cs ↔
      name ∈ es.filterMap PathElement.name? ∧ params[name]? = some value) : Agrees params es cs := by
  induction hcs with
  | nil => trivial
  | literal w hcs ih => exact ih hnodup h
  | @param es segs cs name optional s hcs ih =>
    obtain ⟨hfresh, hnodup⟩ := List.nodup_cons.mp hnodup
    refine ⟨iff_of_false (by simp) ?_, ih hnodup fun name' value => ?_⟩
    · rw [((h name.text s).mp List.mem_cons_self).2]
      simp
    · have hcons := h name' value
      have hnames : (PathElement.param name optional :: es).filterMap PathElement.name? =
          name.text :: es.filterMap PathElement.name? := rfl
      rw [captured, hnames, List.mem_cons, List.mem_cons, Prod.mk.injEq] at hcons
      constructor
      · intro hmem
        have hname : name' ∈ es.filterMap PathElement.name? :=
          (captured_sublist es cs).subset (List.mem_map_of_mem hmem)
        exact ⟨hname, (hcons.mp (.inr hmem)).2⟩
      · rintro ⟨hname, hval⟩
        refine (hcons.mpr ⟨.inr hname, hval⟩).resolve_left ?_
        rintro ⟨rfl, -⟩
        exact hfresh hname
  | @skip es segs cs name hcs ih =>
    obtain ⟨hfresh, hnodup⟩ := List.nodup_cons.mp hnodup
    have hcons (name' value : Str) : (name', value) ∈ captured es cs ↔
        name' ∈ name.text :: es.filterMap PathElement.name? ∧ params[name']? = some value := h name' value
    refine ⟨iff_of_true rfl ?_, ih hnodup fun name' value => ?_⟩
    · cases hval : params[name.text]? with
      | none => rfl
      | some value =>
        have hmem := (hcons name.text value).mpr ⟨List.mem_cons_self, hval⟩
        exact absurd ((captured_sublist es cs).subset (List.mem_map_of_mem hmem)) hfresh
    · constructor
      · intro hmem
        exact ⟨(captured_sublist es cs).subset (List.mem_map_of_mem hmem), ((hcons _ _).mp hmem).2⟩
      · rintro ⟨hname, hval⟩
        exact (hcons _ _).mpr ⟨List.mem_cons_of_mem _ hname, hval⟩

/-- Where nothing is left, every element is left out. -/
theorem optional_of_chooses_nil {es : List PathElement} {cs : List (Option Str)}
    (hcs : Chooses es [] cs) : ∀ e ∈ es, e.isOptional = true := by
  generalize hsegs : ([] : List Str) = segs at hcs
  induction hcs with
  | nil => simp
  | literal w hcs ih => cases hsegs
  | param name optional s hcs ih => cases hsegs
  | skip name hcs ih => exact List.forall_mem_cons.mpr ⟨rfl, ih hsegs⟩

theorem trailing_cons {params : Dictionary} {e : PathElement} {es : List PathElement}
    (h : Trailing params es)
    (he : ∀ name, e = .param name true → params[name.text]? = none → ∀ e ∈ es, e.isOptional = true) :
    Trailing params (e :: es) := by
  intro pre name post heq hnone
  cases pre with
  | nil =>
    obtain ⟨rfl, rfl⟩ := List.cons.inj heq
    exact he name rfl hnone
  | cons e' pre => exact h pre name post (List.cons.inj heq).2 hnone

theorem trailing_of_optional {params : Dictionary} {es : List PathElement}
    (h : ∀ e ∈ es, e.isOptional = true) : Trailing params es := by
  rintro pre name post rfl - e he
  exact h e (by simp [he])

/-- A choice of the segments of the URL that fills what has a value leaves no element over. -/
theorem trailing_of_agrees {params : Dictionary} {es : List PathElement} {cs : List (Option Str)}
    (h : Supplied params es) (hcs : Chooses es (urlSegments params es) cs) (ha : Agrees params es cs) :
    Trailing params es := by
  induction es generalizing cs with
  | nil => exact trailing_of_optional (by simp)
  | cons e es ih =>
    cases e with
    | literal w =>
      cases hcs with
      | literal _ hcs => exact trailing_cons (ih h.tail hcs ha) (fun name heq => nomatch heq)
    | param name optional =>
      rw [urlSegments] at hcs
      cases hval : params[name.text]? with
      | some value =>
        rw [hval] at hcs
        cases hcs with
        | param _ _ _ hcs =>
          refine trailing_cons (ih h.tail hcs ha.2) fun name' heq hnone => ?_
          cases heq
          rw [hval] at hnone
          cases hnone
        | skip _ hcs =>
          have hnone := ha.1.mp rfl
          rw [hval] at hnone
          cases hnone
      | none =>
        cases optional with
        | false => exact absurd hval (h.mandatory name List.mem_cons_self)
        | true =>
          rw [hval] at hcs
          cases hcs with
          | skip _ hcs =>
            have hopt := optional_of_chooses_nil hcs
            exact trailing_cons (trailing_of_optional hopt) fun _ _ _ => hopt

/-- **A route matches the URL it generates**, and captures the values given, if and only if nothing
but optional parameters stands behind the first optional parameter without a value. -/
theorem url_inverts_iff (p : Pattern) (params : Dictionary) (h : Supplied params p.elements) :
    Inverts p params ↔ Trailing params p.elements := by
  have hsegs := urlSegments_segments h
  have hclean : getCleanPath (p.route.url params false) =
      '/'.toUInt8 :: closed (urlSegments params p.elements) := by
    rw [url_eq, getCleanPath_closed]
  unfold Inverts
  rw [matches_segments p hclean rfl hsegs]
  constructor
  · rintro ⟨hmatch, hvars⟩
    cases hfirst : (choices p.elements (urlSegments params p.elements)).head? with
    | none =>
      rw [hfirst] at hmatch
      cases hmatch
    | some cs =>
      rw [hfirst] at hvars
      have hcs := (choices_head hfirst).1
      exact trailing_of_agrees h hcs (agrees_of_captured hcs p.distinct fun name value => by
        rw [← getElem?_captured]
        exact hvars name value)
  · intro ht
    rw [choices_url h ht]
    exact ⟨rfl, fun name value => by
      rw [getElem?_captured, mem_captured_given]
      rfl⟩

/-- The parameters `a` and `b` behind a literal, of which `b` may be left out. -/
def postsPattern : Pattern where
  elements :=
    [.literal ⟨str "posts", by decide, by decide +kernel⟩,
      .param ⟨str "a", fun h => absurd h (by decide), by decide +kernel⟩ false,
      .param ⟨str "b", fun h => absurd h (by decide), by decide +kernel⟩ true]
  distinct := by decide

/-- The parameter `b` is left out. -/
theorem posts_inverts :
    Supplied ((∅ : Dictionary).insert (str "a") (str "1")) postsPattern.elements ∧
      Inverts postsPattern ((∅ : Dictionary).insert (str "a") (str "1")) := by
  have ha : ((∅ : Dictionary).insert (str "a") (str "1"))[str "a"]? = some (str "1") := by decide +kernel
  have hb : ((∅ : Dictionary).insert (str "a") (str "1"))[str "b"]? = none := by decide +kernel
  have h : Supplied ((∅ : Dictionary).insert (str "a") (str "1")) postsPattern.elements := by
    refine ⟨fun name optional value hmem hval => ?_, fun name hmem => ?_, fun pre name post heq _ => ?_⟩
    · simp only [postsPattern, List.mem_cons, List.not_mem_nil, or_false, reduceCtorEq, false_or,
        PathElement.param.injEq] at hmem
      rcases hmem with ⟨rfl, -⟩ | ⟨rfl, -⟩
      · rw [ha] at hval
        cases hval
        exact ⟨by decide, by decide⟩
      · rw [hb] at hval
        cases hval
    · simp only [postsPattern, List.mem_cons, List.not_mem_nil, or_false, reduceCtorEq, false_or,
        PathElement.param.injEq, and_true, Bool.false_eq_true, and_false] at hmem
      rw [hmem, ha]
      simp
    · intro name' hmem
      rcases pre with _ | ⟨_, _ | ⟨_, _ | ⟨_, pre⟩⟩⟩ <;> simp [postsPattern] at heq
      rw [heq.2.2.2] at hmem
      cases hmem
  refine ⟨h, (url_inverts_iff _ _ h).mpr ?_⟩
  refine trailing_cons (trailing_cons (trailing_of_optional (by simp [PathElement.isOptional])) ?_) ?_
  · intro name heq
    cases heq
  · intro name heq
    cases heq

/-- An optional parameter in front of a literal. -/
def versionPattern : Pattern where
  elements :=
    [.literal ⟨str "api", by decide, by decide +kernel⟩,
      .param ⟨str "version", by decide, by decide +kernel⟩ true,
      .literal ⟨str "users", by decide, by decide +kernel⟩]
  distinct := by decide

/-- Without a version the URL is `/api/`. -/
theorem version_lost :
    ¬∀ (p : Pattern) (params : Dictionary), Supplied params p.elements → Inverts p params := by
  intro h
  have hsupplied : Supplied ∅ versionPattern.elements := by
    refine ⟨fun name optional value _ hval => ?_, fun name hmem => ?_, fun pre name post _ _ => ?_⟩
    · simp at hval
    · simp [versionPattern] at hmem
    · intro name' _
      simp
  have hmatch := (h versionPattern ∅ hsupplied).1
  exact absurd hmatch (by decide +kernel)

end Wsrv.Route
