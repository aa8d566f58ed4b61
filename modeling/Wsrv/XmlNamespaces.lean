import Wsrv.XmlElement

/-!
# Namespaces

With `process_ns_` set, a start tag should report the prefix in its name and the
URI of the innermost declaration of that prefix, and the end tag the same.
`breakDownName` leaves `prefix_` alone when the name has no colon, so that the
prefix of the tag before it is reported.  `parseNameSpaceAttributes` passes over
a plain `xmlns` and takes `q:xmlns` for a declaration of the prefix `default`,
and `resolveUri` passes over empty URIs.  For trees of elements, a document is
resolved exactly when none of these is met (`resolved_iff`).
-/

namespace Wsrv.XmlPullParser

open Effect ReadAheadStreamAdapter

/-! ## What is meant -/

/-- The prefix that is written in a name. -/
def prefixOf (name : Str) : Str := (breakDownName name).1.getD []

/-- The attribute that declares a prefix. -/
def declName (p : Str) : Str := if p = [] then str "xmlns" else str "xmlns:" ++ p

/-- The URI of the innermost declaration; the attributes of the innermost element come first. -/
def declaredUri (p : Str) (scopes : List Dictionary) : Str :=
  (scopes.findSome? fun d => d[declName p]?).getD []

/-! ## What is done -/

/-- The prefix that `parseNameSpaceAttributes` stores an attribute under. -/
def heeds (name : Str) : Option Str :=
  let (pfx, localName) := breakDownName name
  let nsPrefix :=
    if pfx = some (str "xmlns") then localName
    else if localName = str "xmlns" then str "default"
    else []
  if pfx.getD [] = [] ∨ nsPrefix = [] then none else some nsPrefix

/-- The URI that is stored under a prefix: attributes come by their names. -/
def heeded (p : Str) (d : Dictionary) : Option Str :=
  (d.toList.find? fun kv => decide (heeds kv.1 = some p)).map Prod.snd

/-- The first that is there and not empty. -/
def filled (f : Dictionary → Option Str) (scopes : List Dictionary) : Str :=
  ((scopes.filterMap f).find? (· ≠ [])).getD []

def nsDict (d : Dictionary) : Dictionary := nsAttributes d.toList

theorem nsAttributes_eq (l : List (Str × Str)) :
    nsAttributes l = (l.filterMap fun kv => (heeds kv.1).map fun k => (k, kv.2)).foldl
      (fun d kv => d.insertIfNew kv.1 kv.2) ∅ := by
  unfold nsAttributes
  generalize (∅ : Dictionary) = d
  induction l generalizing d with
  | nil => rfl
  | cons kv l ih =>
    rw [List.foldl_cons, ih, List.filterMap_cons]
    unfold heeds
    simp only
    by_cases hnone : (breakDownName kv.1).1.getD [] = [] ∨
        (if (breakDownName kv.1).1 = some (str "xmlns") then (breakDownName kv.1).2
          else if (breakDownName kv.1).2 = str "xmlns" then str "default" else []) = []
    · rw [if_pos hnone, if_pos hnone]
      rfl
    · rw [if_neg hnone, if_neg hnone]
      rfl

/-- Under a prefix stands the first attribute that declares it. -/
theorem nsAttributes_getElem? (l : List (Str × Str)) (p : Str) :
    (nsAttributes l)[p]? = (l.find? fun kv => decide (heeds kv.1 = some p)).map Prod.snd := by
  rw [nsAttributes_eq, foldl_insertIfNew_getElem?, Std.ExtTreeMap.getElem?_empty, Option.none_or]
  induction l with
  | nil => rfl
  | cons kv l ih =>
    cases hkv : heeds kv.1 with
    | none =>
      rw [List.filterMap_cons_none (by rw [hkv]; rfl), ih, List.find?_cons_of_neg (by simp [hkv])]
    | some k =>
      rw [List.filterMap_cons_some (by rw [hkv]; rfl)]
      by_cases hk : k = p
      · rw [List.find?_cons_of_pos (by simpa using hk), List.find?_cons_of_pos (by simpa [hkv] using hk)]
        rfl
      · rw [List.find?_cons_of_neg (by simpa using hk), ih,
          List.find?_cons_of_neg (by simpa [hkv] using hk)]

theorem filled_cons (f : Dictionary → Option Str) (d : Dictionary) (scopes : List Dictionary) :
    filled f (d :: scopes) = if (f d).getD [] = [] then filled f scopes else (f d).getD [] := by
  unfold filled
  cases hd : f d with
  | none =>
    rw [List.filterMap_cons_none hd]
    rfl
  | some uri =>
    rw [List.filterMap_cons_some hd, Option.getD_some]
    by_cases huri : uri = []
    · rw [if_pos huri, List.find?_cons_of_neg (by simpa using huri)]
    · rw [if_neg huri, List.find?_cons_of_pos (by simpa using huri)]
      rfl

/-- `resolveUri` finds the first URI that is stored and not empty. -/
theorem resolveUri_eq (scopes : List Dictionary) (p : Str) :
    resolveUri (scopes.map nsDict) p = filled (heeded p) scopes := by
  induction scopes with
  | nil => rfl
  | cons d scopes ih =>
    have hget : (nsDict d)[p]? = heeded p d := nsAttributes_getElem? d.toList p
    rw [List.map_cons, resolveUri, hget, ih, filled_cons]
    by_cases huri : (heeded p d).getD [] = []
    · rw [if_pos huri]
      exact if_neg (not_not.mpr huri)
    · rw [if_neg huri]
      exact if_pos huri

/-! ## Names -/

theorem breakDownName_colon {q : Str} (hq : ':'.toUInt8 ∉ q) (l : Str) :
    breakDownName (q ++ ':'.toUInt8 :: l) = (some q, l) := by
  have hidx : (q ++ ':'.toUInt8 :: l).idxOf ':'.toUInt8 = q.length := by
    rw [List.idxOf_append_of_notMem hq, List.idxOf_cons_self, Nat.add_zero]
  have hfind : find (q ++ ':'.toUInt8 :: l) ':'.toUInt8 = some q.length := by
    rw [find, if_pos (List.mem_append_right _ List.mem_cons_self), hidx]
  have hsplit : q ++ ':'.toUInt8 :: l = (q ++ [':'.toUInt8]) ++ l := by
    rw [List.append_assoc, List.singleton_append]
  unfold breakDownName
  rw [hfind]
  refine Prod.ext (congrArg some List.take_left) ?_
  change (q ++ ':'.toUInt8 :: l).drop (q.length + 1) = l
  rw [hsplit, List.drop_left' (by rw [List.length_append, List.length_singleton])]

theorem breakDownName_some {name q : Str} (h : (breakDownName name).1 = some q) :
    name = q ++ ':'.toUInt8 :: (breakDownName name).2 := by
  by_cases hmem : ':'.toUInt8 ∈ name
  · obtain ⟨as, bs, rfl, has⟩ := List.eq_append_cons_of_mem hmem
    rw [breakDownName_colon has] at h ⊢
    rw [Option.some.inj h]
  · unfold breakDownName at h
    rw [find, if_neg hmem] at h
    cases h

/-- But for `default`, a prefix is stored by its own declaration only. -/
theorem heeds_iff {p : Str} (hp : p ≠ []) (hdefault : p ≠ str "default") (name : Str) :
    heeds name = some p ↔ name = str "xmlns:" ++ p := by
  constructor
  · intro h
    unfold heeds at h
    simp only at h
    by_cases hxmlns : (breakDownName name).1 = some (str "xmlns")
    · rw [if_pos hxmlns] at h
      split at h
      · cases h
      · rw [breakDownName_some hxmlns, Option.some.inj h]
        rfl
    · rw [if_neg hxmlns] at h
      by_cases hlocal : (breakDownName name).2 = str "xmlns"
      · rw [if_pos hlocal] at h
        split at h
        · cases h
        · exact absurd (Option.some.inj h).symm hdefault
      · rw [if_neg hlocal] at h
        split at h
        · cases h
        · exact absurd (Option.some.inj h).symm hp
  · rintro rfl
    have hbreak : breakDownName (str "xmlns:" ++ p) = (some (str "xmlns"), p) :=
      breakDownName_colon (q := str "xmlns") (by decide) p
    unfold heeds
    rw [hbreak]
    simp only [if_true]
    rw [if_neg (not_or.mpr ⟨by decide, hp⟩)]

theorem find?_toList (d : Dictionary) {f : Str × Str → Bool} {k : Str}
    (hf : ∀ kv, f kv = true ↔ kv.1 = k) : (d.toList.find? f).map Prod.snd = d[k]? := by
  cases hfind : d.toList.find? f with
  | none =>
    cases hd : d[k]? with
    | none => rfl
    | some v =>
      have hmem := Std.ExtTreeMap.mem_toList_iff_getElem?_eq_some.mpr hd
      exact absurd ((hf (k, v)).mpr rfl) (List.find?_eq_none.mp hfind _ hmem)
  | some kv =>
    obtain rfl := (hf kv).mp (List.find?_some hfind)
    have hmem := List.mem_of_find?_eq_some hfind
    exact (Std.ExtTreeMap.mem_toList_iff_getElem?_eq_some.mp hmem).symm

theorem heeded_eq {p : Str} (hp : p ≠ []) (hdefault : p ≠ str "default") :
    heeded p = fun d => d[str "xmlns:" ++ p]? := funext fun d =>
  find?_toList d fun kv => by rw [decide_eq_true_iff, heeds_iff hp hdefault]

/-- The URI that the parser takes for a prefix. -/
def uriOf (scopes : List Dictionary) (p : Str) : Str :=
  filled (heeded (if p = [] then str "xmlns" else p)) scopes

/-- The URI of the prefix is the one of its innermost declaration.  Without a prefix, only
`xmlns:xmlns` is heeded; `default` is declared by `q:xmlns` too; for any other prefix there is no
URI, or the innermost one is not empty. -/
def Kept (scopes : List Dictionary) (p : Str) : Prop :=
  if p = [] then filled (fun d => d[str "xmlns:xmlns"]?) scopes = declaredUri [] scopes
  else if p = str "default" then filled (heeded p) scopes = declaredUri p scopes
  else declaredUri p scopes = [] → ∀ d ∈ scopes, d[declName p]?.getD [] = []

theorem filled_eq_nil_iff (f : Dictionary → Option Str) (scopes : List Dictionary) :
    filled f scopes = [] ↔ ∀ d ∈ scopes, (f d).getD [] = [] := by
  induction scopes with
  | nil => exact ⟨fun _ _ h => absurd h List.not_mem_nil, fun _ => rfl⟩
  | cons d scopes ih =>
    rw [filled_cons, List.forall_mem_cons]
    by_cases huri : (f d).getD [] = []
    · rw [if_pos huri, ih, and_iff_right huri]
    · rw [if_neg huri]
      exact ⟨fun h => absurd h huri, fun h => absurd h.1 huri⟩

/-- The first that is not empty is the first, unless that is empty and another is not. -/
theorem filled_eq_iff (f : Dictionary → Option Str) (scopes : List Dictionary) :
    filled f scopes = (scopes.findSome? f).getD [] ↔
      ((scopes.findSome? f).getD [] = [] → ∀ d ∈ scopes, (f d).getD [] = []) := by
  rw [← filled_eq_nil_iff]
  refine ⟨fun h hnil => h.trans hnil, fun h => ?_⟩
  induction scopes with
  | nil => rfl
  | cons d scopes ih =>
    rw [filled_cons] at h ⊢
    rw [List.findSome?_cons] at h ⊢
    cases hd : f d with
    | none =>
      rw [hd] at h
      exact ih h
    | some uri =>
      rw [hd] at h
      simp only [Option.getD_some] at h ⊢
      by_cases huri : uri = []
      · exact (h huri).trans huri.symm
      · rw [if_neg huri]

theorem uriOf_eq_iff (scopes : List Dictionary) (p : Str) :
    uriOf scopes p = declaredUri p scopes ↔ Kept scopes p := by
  unfold uriOf Kept
  by_cases hp : p = []
  · subst hp
    rw [if_pos rfl, if_pos rfl, heeded_eq (by decide) (by decide)]
    rfl
  rw [if_neg hp, if_neg hp]
  by_cases hdefault : p = str "default"
  · rw [if_pos hdefault]
  · rw [if_neg hdefault, heeded_eq hp hdefault, declaredUri, declName, if_neg hp]
    exact filled_eq_iff _ scopes

/-! ## Trees -/

/-- The tags of an element: the white space behind the attributes and behind the name of the end
tag is free. -/
structure NsTag where
  name : Str
  attrs : List Attribute
  behindAttrs : Str
  behindEnd : Str
  isName : IsName name
  distinct : (attrs.map Attribute.name).Nodup
  /-- The first attribute is not a part of the name. -/
  apart : ∀ a, attrs.head? = some a → a.before ≠ []
  white : White behindAttrs ∧ White behindEnd

namespace NsTag

variable (t : NsTag)

def dictionary : Dictionary :=
  (t.attrs.map Attribute.pair).foldl (fun d kv => d.insertIfNew kv.1 kv.2) ∅

/-- The start tag that ends with `c`, in front of `r`. -/
def opening (c : UInt8) (r : Str) : Str := '<'.toUInt8 :: (t.name ++ restTo c t.attrs t.behindAttrs r)

def closing (r : Str) : Str :=
  '<'.toUInt8 :: '/'.toUInt8 :: (t.name ++ (t.behindEnd ++ '>'.toUInt8 :: r))

/-- The prefix that is reported behind a tag with the prefix `pfx`. -/
def reported (pfx : Str) : Str := (breakDownName t.name).1.getD pfx

def localName : Str := (breakDownName t.name).2

end NsTag

/-- A text, which may be empty, then an element with or without an end tag, and so on. -/
inductive NsContent
  | text (t : Str)
  | element (t : Str) (tag : NsTag) (inner after : NsContent)
  | empty (t : Str) (tag : NsTag) (after : NsContent)

/-- What a caller of `next` sees of an event: the local name, the prefix and the URI. -/
inductive NsEvent
  | startTag (name pfx ns : Str)
  | endTag (name pfx ns : Str)
  | text (t : Str)
  | none
  deriving DecidableEq

namespace NsContent

/-- The content in front of `r`. -/
def write : NsContent → Str → Str
  | text t, r => escape t ++ r
  | element t tag inner after, r =>
    escape t ++ tag.opening '>'.toUInt8 (inner.write (tag.closing (after.write r)))
  | empty t tag after, r => escape t ++ tag.opening '/'.toUInt8 ('>'.toUInt8 :: after.write r)

/-- No event for an empty text. -/
def texts (t : Str) : List NsEvent := if t = [] then [] else [.text t]

/-- The events, where `f` gives the prefix of a tag behind another one and `g` the URI of a prefix. -/
def events (f : Str → NsTag → Str) (g : List Dictionary → Str → Str) (pfx : Str)
    (scopes : List Dictionary) : NsContent → List NsEvent
  | text t => texts t
  | element t tag inner after =>
    let p := f pfx tag
    let uri := g (tag.dictionary :: scopes) p
    texts t ++ .startTag tag.localName p uri ::
      (inner.events f g p (tag.dictionary :: scopes) ++ .endTag tag.localName p uri ::
        after.events f g p scopes)
  | empty t tag after =>
    let p := f pfx tag
    let uri := g (tag.dictionary :: scopes) p
    texts t ++ .startTag tag.localName p uri :: .endTag tag.localName p uri ::
      after.events f g p scopes

/-- The events as they should be: the prefix is the one in the name. -/
def meant (scopes : List Dictionary) (content : NsContent) : List NsEvent :=
  content.events (fun _ tag => prefixOf tag.name) (fun scopes p => declaredUri p scopes) [] scopes

/-- The events as the parser reports them behind a tag with the prefix `pfx`. -/
def done (pfx : Str) (scopes : List Dictionary) (content : NsContent) : List NsEvent :=
  content.events (fun pfx tag => tag.reported pfx) uriOf pfx scopes

/-- Behind a tag with the prefix `pfx`: no element without a prefix stands behind one with a prefix,
and the URI of each prefix is kept. -/
def Direct (pfx : Str) (scopes : List Dictionary) : NsContent → Prop
  | text _ => True
  | element _ tag inner after =>
    ((breakDownName tag.name).1 = Option.none → pfx = []) ∧
      Kept (tag.dictionary :: scopes) (prefixOf tag.name) ∧
      inner.Direct (prefixOf tag.name) (tag.dictionary :: scopes) ∧
      after.Direct (prefixOf tag.name) scopes
  | empty _ tag after =>
    ((breakDownName tag.name).1 = Option.none → pfx = []) ∧
      Kept (tag.dictionary :: scopes) (prefixOf tag.name) ∧ after.Direct (prefixOf tag.name) scopes

theorem events_length (f f' : Str → NsTag → Str) (g g' : List Dictionary → Str → Str)
    (pfx pfx' : Str) (scopes scopes' : List Dictionary) (content : NsContent) :
    (content.events f g pfx scopes).length = (content.events f' g' pfx' scopes').length := by
  induction content generalizing pfx pfx' scopes scopes' with
  | text t => rfl
  | element t tag inner after ihInner ihAfter =>
    simp only [events, List.length_append, List.length_cons]
    rw [ihInner _ (f' pfx' tag) _ (tag.dictionary :: scopes'), ihAfter _ (f' pfx' tag) _ scopes']
  | empty t tag after ih =>
    simp only [events, List.length_append, List.length_cons]
    rw [ih _ (f' pfx' tag) _ scopes']

theorem reported_eq_iff (pfx : Str) (tag : NsTag) :
    tag.reported pfx = prefixOf tag.name ↔ ((breakDownName tag.name).1 = Option.none → pfx = []) := by
  unfold NsTag.reported prefixOf
  cases (breakDownName tag.name).1 with
  | none => exact ⟨fun h _ => h, fun h => h rfl⟩
  | some q => exact ⟨fun _ => nofun, fun _ => rfl⟩

/-- A tag: the prefix first, then its URI. -/
theorem startTag_eq_iff (pfx : Str) (scopes : List Dictionary) (tag : NsTag) :
    NsEvent.startTag tag.localName (tag.reported pfx) (uriOf scopes (tag.reported pfx)) =
        .startTag tag.localName (prefixOf tag.name) (declaredUri (prefixOf tag.name) scopes) ↔
      ((breakDownName tag.name).1 = Option.none → pfx = []) ∧ Kept scopes (prefixOf tag.name) := by
  rw [← reported_eq_iff, ← uriOf_eq_iff, NsEvent.startTag.injEq, and_iff_right rfl]
  constructor
  · rintro ⟨hp, huri⟩
    rw [hp] at huri
    exact ⟨hp, huri⟩
  · rintro ⟨hp, huri⟩
    rw [hp]
    exact ⟨rfl, huri⟩

/-- **What is done is what is meant** exactly for direct contents. -/
theorem done_eq_iff (pfx : Str) (scopes : List Dictionary) (content : NsContent) :
    content.done pfx scopes = content.meant scopes ↔ content.Direct pfx scopes := by
  have hmeant (pfx : Str) (scopes : List Dictionary) (content : NsContent) :
      content.events (fun _ tag => prefixOf tag.name) (fun scopes p => declaredUri p scopes) pfx scopes =
        content.meant scopes := by
    cases content <;> rfl
  induction content generalizing pfx scopes with
  | text t => exact iff_true_intro rfl
  | element t tag inner after ihInner ihAfter =>
    have hinner := iff_iff_eq.mp (ihInner (prefixOf tag.name) (tag.dictionary :: scopes))
    have hafter := iff_iff_eq.mp (ihAfter (prefixOf tag.name) scopes)
    rw [Direct, ← and_assoc, ← startTag_eq_iff, ← hinner, ← hafter]
    unfold done meant
    simp only [events, List.append_cancel_left_eq, List.cons_eq_cons, hmeant]
    refine and_congr_right fun hstart => ?_
    obtain ⟨-, hp, huri⟩ := NsEvent.startTag.inj hstart
    rw [huri, hp]
    constructor
    · intro h
      obtain ⟨hinner, hrest⟩ := List.append_inj h (events_length _ _ _ _ _ _ _ _ inner)
      exact ⟨hinner, (List.cons.inj hrest).2⟩
    · rintro ⟨hinner, hafter⟩
      exact congrArg₂ _ hinner (congrArg _ hafter)
  | empty t tag after ih =>
    have hafter := iff_iff_eq.mp (ih (prefixOf tag.name) scopes)
    rw [Direct, ← and_assoc, ← startTag_eq_iff, ← hafter]
    unfold done meant
    simp only [events, List.append_cancel_left_eq, List.cons_eq_cons, hmeant]
    refine and_congr_right fun hstart => ?_
    obtain ⟨-, hp, huri⟩ := NsEvent.startTag.inj hstart
    rw [huri, hp, and_iff_right rfl]

end NsContent

/-! ## Tokens -/

/-- A call of `readToken` in front of `r`, where the tag before had the prefix `pfx`. -/
structure NsFront (s : XmlPullParser) (pfx : Str) (stack : List Element) (scopes : List Dictionary)
    (r : Str) : Prop where
  cursor : Reads 8 s.cursor r
  full : s.isEmptyElementTag = false
  processNs : s.processNs = true
  pfx : s.pfx = pfx
  stack : s.elementStack = stack
  scopes : s.nsStack = scopes.map nsDict

/-- What is on the stack for an element. -/
def elementOf (tag : NsTag) (pfx : Str) (scopes : List Dictionary) : Element :=
  ⟨tag.localName, tag.reported pfx, uriOf (tag.dictionary :: scopes) (tag.reported pfx)⟩

/-- The members that a start tag sets. -/
def openedNs (s : XmlPullParser) (tag : NsTag) (pfx : Str) (scopes : List Dictionary) (b : Bool) :
    XmlPullParser :=
  { s with
    name := tag.name
    attributes := tag.dictionary
    nsStack := (tag.dictionary :: scopes).map nsDict
    pfx := tag.reported pfx
    localName := tag.localName
    ns := uriOf (tag.dictionary :: scopes) (tag.reported pfx)
    elementStack := elementOf tag pfx scopes :: s.elementStack
    isEmptyElementTag := b }

theorem getNamespace_eq {s : XmlPullParser} {scopes : List Dictionary}
    (hs : s.nsStack = scopes.map nsDict) (p : Str) : getNamespace s p = uriOf scopes p := by
  unfold getNamespace uriOf
  rw [hs]
  by_cases hp : p = []
  · rw [if_pos hp, if_pos hp, resolveUri_eq]
  · rw [if_neg hp, if_neg hp, resolveUri_eq]

theorem finishTag_ns {s : XmlPullParser} (tag : NsTag) {pfx : Str} {scopes : List Dictionary}
    (hns : s.processNs = true) (hname : s.name = tag.name) (hattrs : s.attributes = tag.dictionary)
    (hpfx : s.pfx = pfx) (hscopes : s.nsStack = scopes.map nsDict) :
    finishTag s = (do
      if ← onCursor (expect (str "/>")) then
        modify fun s => { s with isEmptyElementTag := true }
        return true
      else if ← onCursor (expect (str ">")) then
        modify fun s => { s with isEmptyElementTag := false }
        return true
      else return false : Parser Bool) (openedNs s tag pfx scopes s.isEmptyElementTag) := by
  unfold finishTag
  rw [bind_ok (get_run _), if_pos hns]
  refine (bind_ok (modify_run _ _)).trans ((bind_ok (modify_run _ _)).trans
    ((bind_ok (modify_run _ _)).trans ((bind_ok (modify_run _ _)).trans (congrArg _ ?_))))
  have hstack : (setNames { s with nsStack := nsDict s.attributes :: s.nsStack }).nsStack =
      (tag.dictionary :: scopes).map nsDict := by
    rw [← hattrs, List.map_cons, ← hscopes]
    rfl
  have huri := getNamespace_eq hstack (tag.reported pfx)
  unfold openedNs elementOf NsTag.localName
  rw [← huri, List.map_cons, ← hscopes, ← hattrs]
  unfold NsTag.reported
  rw [← hname, ← hpfx]
  rfl

/-- The first character of the end of a tag. -/
def endChar (b : Bool) : UInt8 := if b then '/'.toUInt8 else '>'.toUInt8

/-- What follows it. -/
def endRest (b : Bool) (r : Str) : Str := if b then '>'.toUInt8 :: r else r

theorem parseStartElement_ns (tag : NsTag) (b : Bool) {pfx : Str} {scopes : List Dictionary} (r : Str)
    {s : XmlPullParser} (hs : Reads 8 s.cursor (tag.name ++ restTo (endChar b) tag.attrs
      tag.behindAttrs (endRest b r)))
    (hns : s.processNs = true) (hpfx : s.pfx = pfx) (hscopes : s.nsStack = scopes.map nsDict) :
    ∃ c, parseStartElement s = (.ok true, { openedNs s tag pfx scopes b with cursor := c }) ∧
      Reads 8 c r := by
  have hends : EndsTag (endChar b) := by
    cases b
    · exact .inr rfl
    · exact .inl rfl
  obtain ⟨x, hpeek, hslash, -⟩ := tag.isName.peek
    (restTo (endChar b) tag.attrs tag.behindAttrs (endRest b r))
  obtain ⟨y, behind, hrest, hy⟩ := rest_endsName hends tag.apart tag.white.1 (endRest b r)
  obtain ⟨text, res, hskip, hloop, hres, hdictionary⟩ :=
    attributes_escaped hends tag.attrs tag.white.1 (endRest b r)
  have hread : Gives 8 8 parseName (tag.name ++ restTo (endChar b) tag.attrs tag.behindAttrs (endRest b r))
      tag.name (restTo (endChar b) tag.attrs tag.behindAttrs (endRest b r)) := by
    rw [hrest]
    exact tag.isName.parseName hy behind
  obtain ⟨c, hfront, hc⟩ := parseStartElement_front tag.isName.ne hpeek hslash
    (tag.isName.skipWhite (w := []) (by simp) _) hread hskip hloop hres (skipWhite_one hends.facts.1 _) hs
  have hfinish := finishTag_ns (s := { s with cursor := c, name := tag.name, attributes := res.2 })
    tag hns rfl hdictionary hpfx hscopes
  rw [hfront, hfinish]
  cases b with
  | true =>
    have hexpect : Gives 8 8 (expect (str "/>")) (['/'.toUInt8, '>'.toUInt8] ++ r) true r := by
      have hstr : str "/>" = ['/'.toUInt8, '>'.toUInt8] := by decide
      rw [hstr]
      refine Gives.expect_true (fun x hx => ?_) (by decide)
      rcases List.mem_cons.mp hx with rfl | hx
      · decide
      · rw [List.mem_singleton.mp hx]
        decide
    obtain ⟨c', hrun, hc'⟩ := onCursor_gives
      (s := openedNs { s with cursor := c } tag pfx scopes s.isEmptyElementTag) hexpect hc
    refine ⟨c', (bind_ok hrun).trans ?_, hc'⟩
    rw [if_pos rfl]
    exact bind_ok (modify_run _ _)
  | false =>
    obtain ⟨c₁, hrun₁, hc₁⟩ := onCursor_gives
      (s := openedNs { s with cursor := c } tag pfx scopes s.isEmptyElementTag)
      (expect_other (p := '/'.toUInt8) (c := '>'.toUInt8) (by decide) (by decide) ['>'.toUInt8] r) hc
    obtain ⟨c₂, hrun₂, hc₂⟩ := onCursor_gives
      (s := { openedNs s tag pfx scopes s.isEmptyElementTag with cursor := c₁ })
      (expect_one (by decide) r) hc₁
    refine ⟨c₂, (bind_ok hrun₁).trans ?_, hc₂⟩
    rw [if_neg Bool.false_ne_true]
    refine (bind_ok hrun₂).trans ?_
    rw [if_pos rfl]
    exact bind_ok (modify_run _ _)

/-- A start tag. -/
theorem readToken_openNs (tag : NsTag) (b : Bool) {pfx : Str} {scopes : List Dictionary} {r : Str}
    {s : XmlPullParser} (hs : Reads 8 s.cursor (tag.opening (endChar b) (endRest b r)))
    (hfull : s.isEmptyElementTag = false) (hns : s.processNs = true) (hpfx : s.pfx = pfx)
    (hscopes : s.nsStack = scopes.map nsDict) :
    ∃ c, readToken s = (.ok .START_TAG, { openedNs s tag pfx scopes b with
        cursor := c, depth := s.depth + 1, token := .START_TAG }) ∧ Reads 8 c r := by
  obtain ⟨c₁, hrun, hc₁⟩ := onCursor_gives (Gives.next (by decide)) hs
  obtain ⟨c₂, hopen, hc₂⟩ := parseStartElement_ns tag b r (s := { s with cursor := c₁ })
    (hc₁.mono (by omega)) hns hpfx hscopes
  have hfull : ¬ (s.token = .START_TAG ∧ s.isEmptyElementTag = true) := by simp [hfull]
  refine ⟨c₂, ?_, hc₂⟩
  unfold readToken
  rw [bind_ok (get_run s), if_neg hfull, bind_ok hrun]
  simp only [if_true]
  unfold parseMarkup
  rw [bind_ok hopen, if_pos rfl]
  rfl

/-- An end tag gives back what the start tag reported. -/
theorem readToken_closeNs (tag : NsTag) {e : Element} {stack : List Element} {r : Str}
    {s : XmlPullParser} (hs : Reads 8 s.cursor (tag.closing r)) (hfull : s.isEmptyElementTag = false)
    (hns : s.processNs = true) (hstack : s.elementStack = e :: stack) (he : e.name = tag.localName) :
    ∃ c, readToken s = (.ok .END_TAG, closeElement { s with
        cursor := c, name := tag.name, localName := tag.localName, ns := e.ns, pfx := e.pfx }) ∧
      Reads 8 c r := by
  obtain ⟨c₁, hrun, hc₁⟩ := onCursor_gives (Gives.next (by decide)) hs
  obtain ⟨hstart, c₂, hclose, hc₂⟩ := parseEndElement_parts tag.isName.ne
    (tag.isName.skipWhite (w := []) (by simp) _) (tag.white.2.parseName tag.isName (by decide) r)
    (tag.white.2.skip (by decide) r) (s := { s with cursor := c₁ }) (hc₁.mono (by omega))
  have hfull : ¬ (s.token = .START_TAG ∧ s.isEmptyElementTag = true) := by simp [hfull]
  refine ⟨c₂, ?_, hc₂⟩
  unfold readToken
  rw [bind_ok (get_run s), if_neg hfull, bind_ok hrun]
  simp only [if_true]
  unfold parseMarkup
  rw [bind_ok hstart, if_neg Bool.false_ne_true, bind_ok hclose, if_pos rfl]
  unfold matchEndTag
  have hnames : (if s.processNs = true then setNames { s with cursor := c₂, name := tag.name }
      else { s with cursor := c₂, name := tag.name, localName := tag.name }) =
        setNames { s with cursor := c₂, name := tag.name } := if_pos hns
  refine (bind_ok (modify_run _ _)).trans ?_
  simp only
  rw [hnames, bind_ok (get_run _)]
  have hopen : (setNames { s with cursor := c₂, name := tag.name }).elementStack = e :: stack := hstack
  rw [hopen]
  -- the prefix of the end tag is overwritten
  have hmatch : (setNames { s with cursor := c₂, name := tag.name }).localName = e.name := he.symm
  simp only
  rw [if_pos hmatch]
  exact bind_ok (modify_run _ _)

/-! ## Calls -/

def observeNs (event : Option TokenType) (s : XmlPullParser) : NsEvent :=
  match event with
  | some .START_TAG => .startTag s.localName s.pfx s.ns
  | some .END_TAG => .endTag s.localName s.pfx s.ns
  | some .TEXT => .text s.text
  | _ => .none

/-- What the first `n` calls of `next` give. -/
def nsCalls : Nat → XmlPullParser → List (Except XmlStop NsEvent)
  | 0, _ => []
  | n + 1, s =>
    match next s with
    | (.ok event, s') => .ok (observeNs event s') :: nsCalls n s'
    | (.error e, _) => [.error e]

/-- The next calls return some events, and leave `s'`. -/
def Reports (s : XmlPullParser) (l : List NsEvent) (s' : XmlPullParser) : Prop :=
  ∀ n, nsCalls (l.length + n) s = l.map .ok ++ nsCalls n s'

theorem Reports.nil (s : XmlPullParser) : Reports s [] s := fun n => by
  rw [List.length_nil, Nat.zero_add]
  rfl

theorem Reports.append {s s' s'' : XmlPullParser} {l l' : List NsEvent} (h : Reports s l s')
    (h' : Reports s' l' s'') : Reports s (l ++ l') s'' := fun n => by
  rw [List.length_append, Nat.add_assoc, h, h', List.map_append, List.append_assoc]

/-- The next call of `nextToken` reads in front of `r`. -/
def NsReady (s : XmlPullParser) (pfx : Str) (stack : List Element) (scopes : List Dictionary)
    (r : Str) : Prop :=
  ∃ s₁, nextToken s = readToken s₁ ∧ NsFront s₁ pfx stack scopes r

/-- A call that returns an event. -/
theorem reports_one {s s' : XmlPullParser} {t e : TokenType} {x : NsEvent}
    (h : nextToken s = (.ok t, s')) (he : TokenType.event? t = some e)
    (hx : observeNs (some e) s' = x) : Reports s [x] { s' with event := some e } := fun n => by
  have hone : nsCalls (n + 1) s = .ok (observeNs (some e) { s' with event := some e }) ::
      nsCalls n { s' with event := some e } := by
    rw [nsCalls, next_event h he]
  rw [List.length_singleton, Nat.add_comm 1 n, hone, ← hx]
  rfl

theorem NsFront.ready {s : XmlPullParser} {pfx r : Str} {stack : List Element}
    {scopes : List Dictionary} (h : NsFront s pfx stack scopes r) {e : TokenType}
    (htoken : s.token = e) (he : e ≠ .START_DOCUMENT) :
    NsReady { s with event := some e } pfx stack scopes r :=
  ⟨{ s with event := some e }, nextToken_started (htoken.trans_ne he),
    ⟨h.cursor, h.full, h.processNs, h.pfx, h.stack, h.scopes⟩⟩

/-- A text in front of a tag. -/
theorem reports_text {t pfx r : Str} {stack : List Element} {scopes : List Dictionary}
    {s : XmlPullParser} (hs : NsReady s pfx stack scopes (escape t ++ '<'.toUInt8 :: r)) :
    ∃ s', Reports s (NsContent.texts t) s' ∧ NsReady s' pfx stack scopes ('<'.toUInt8 :: r) := by
  unfold NsContent.texts
  by_cases hnone : t = []
  · rw [if_pos hnone]
    subst hnone
    exact ⟨s, .nil s, hs⟩
  · rw [if_neg hnone]
    obtain ⟨s₁, hcall, hfront⟩ := hs
    obtain ⟨w, c, hrun, hc⟩ := readToken_written hnone hfront.cursor hfront.full
    have hafter : NsFront { s₁ with cursor := c, text := t, isWhitespace := w, token := .TEXT } pfx
        stack scopes ('<'.toUInt8 :: r) :=
      ⟨hc, hfront.full, hfront.processNs, hfront.pfx, hfront.stack, hfront.scopes⟩
    exact ⟨_, reports_one (hcall.trans hrun) rfl rfl, hafter.ready rfl (by decide)⟩

/-- A start tag. -/
theorem reports_open (tag : NsTag) {pfx r : Str} {stack : List Element} {scopes : List Dictionary}
    {s : XmlPullParser} (hs : NsReady s pfx stack scopes (tag.opening '>'.toUInt8 r)) :
    ∃ s', Reports s [.startTag tag.localName (tag.reported pfx)
        (uriOf (tag.dictionary :: scopes) (tag.reported pfx))] s' ∧
      NsReady s' (tag.reported pfx) (elementOf tag pfx scopes :: stack) (tag.dictionary :: scopes) r := by
  obtain ⟨s₁, hcall, hfront⟩ := hs
  obtain ⟨c, hrun, hc⟩ := readToken_openNs tag false hfront.cursor hfront.full hfront.processNs
    hfront.pfx hfront.scopes
  have hafter : NsFront { openedNs s₁ tag pfx scopes false with
      cursor := c, depth := s₁.depth + 1, token := .START_TAG } (tag.reported pfx)
      (elementOf tag pfx scopes :: stack) (tag.dictionary :: scopes) r :=
    ⟨hc, rfl, hfront.processNs, rfl, congrArg (List.cons _) hfront.stack, rfl⟩
  exact ⟨_, reports_one (hcall.trans hrun) rfl rfl, hafter.ready rfl (by decide)⟩

/-- An end tag, which reports what the start tag did. -/
theorem reports_close (tag : NsTag) {pfx pfx' r : Str} {stack : List Element}
    {scopes : List Dictionary} {d : Dictionary} {s : XmlPullParser}
    (hs : NsReady s pfx' (elementOf tag pfx scopes :: stack) (d :: scopes) (tag.closing r)) :
    ∃ s', Reports s [.endTag tag.localName (tag.reported pfx)
        (uriOf (tag.dictionary :: scopes) (tag.reported pfx))] s' ∧
      NsReady s' (tag.reported pfx) stack scopes r := by
  obtain ⟨s₁, hcall, hfront⟩ := hs
  obtain ⟨c, hrun, hc⟩ := readToken_closeNs tag hfront.cursor hfront.full hfront.processNs
    hfront.stack rfl
  refine ⟨_, reports_one (hcall.trans hrun) rfl rfl, NsFront.ready ?_ rfl (by decide)⟩
  refine ⟨hc, hfront.full, hfront.processNs, rfl, congrArg List.tail hfront.stack, ?_⟩
  have htail : (if s₁.processNs = true then s₁.nsStack.tail else s₁.nsStack) = s₁.nsStack.tail :=
    if_pos hfront.processNs
  exact htail.trans (congrArg List.tail hfront.scopes)

/-- An empty element, which is opened and closed. -/
theorem reports_empty (tag : NsTag) {pfx r : Str} {stack : List Element} {scopes : List Dictionary}
    {s : XmlPullParser}
    (hs : NsReady s pfx stack scopes (tag.opening '/'.toUInt8 ('>'.toUInt8 :: r))) :
    ∃ s', Reports s [.startTag tag.localName (tag.reported pfx)
          (uriOf (tag.dictionary :: scopes) (tag.reported pfx)),
        .endTag tag.localName (tag.reported pfx)
          (uriOf (tag.dictionary :: scopes) (tag.reported pfx))] s' ∧
      NsReady s' (tag.reported pfx) stack scopes r := by
  obtain ⟨s₁, hcall, hfront⟩ := hs
  obtain ⟨c, hrun, hc⟩ := readToken_openNs tag true (r := r) hfront.cursor hfront.full
    hfront.processNs hfront.pfx hfront.scopes
  have hopen := reports_one (hcall.trans hrun) rfl rfl
  have hclose := reports_one (nextToken_empty (s := { openedNs s₁ tag pfx scopes true with
    cursor := c, depth := s₁.depth + 1, token := .START_TAG, event := some .START_TAG }) rfl rfl)
    rfl rfl
  refine ⟨_, hopen.append hclose, NsFront.ready ?_ rfl (by decide)⟩
  refine ⟨hc, rfl, hfront.processNs, rfl, hfront.stack, ?_⟩
  have htail : (if s₁.processNs = true then (openedNs s₁ tag pfx scopes true).nsStack.tail
      else (openedNs s₁ tag pfx scopes true).nsStack) = scopes.map nsDict := if_pos hfront.processNs
  exact htail

/-- The run over a content, up to the tag behind it. -/
theorem reports_content (content : NsContent) {pfx r : Str} {stack : List Element} {scopes : List Dictionary} {s : XmlPullParser}
    (hs : NsReady s pfx stack scopes (content.write ('<'.toUInt8 :: r))) :
    ∃ s' pfx', Reports s (content.done pfx scopes) s' ∧
      NsReady s' pfx' stack scopes ('<'.toUInt8 :: r) := by
  induction content generalizing pfx r stack scopes s with
  | text t =>
    obtain ⟨s', hrun, hs'⟩ := reports_text hs
    exact ⟨s', pfx, hrun, hs'⟩
  | element t tag inner after ihInner ihAfter =>
    obtain ⟨s₁, hrun₁, hs₁⟩ := reports_text hs
    obtain ⟨s₂, hrun₂, hs₂⟩ := reports_open tag hs₁
    obtain ⟨s₃, pfx₃, hrun₃, hs₃⟩ := ihInner hs₂
    obtain ⟨s₄, hrun₄, hs₄⟩ := reports_close tag hs₃
    obtain ⟨s₅, pfx₅, hrun₅, hs₅⟩ := ihAfter hs₄
    exact ⟨s₅, pfx₅, hrun₁.append (hrun₂.append (hrun₃.append (hrun₄.append hrun₅))), hs₅⟩
  | empty t tag after ih =>
    obtain ⟨s₁, hrun₁, hs₁⟩ := reports_text hs
    obtain ⟨s₂, hrun₂, hs₂⟩ := reports_empty tag hs₁
    obtain ⟨s₃, pfx₃, hrun₃, hs₃⟩ := ih hs₂
    exact ⟨s₃, pfx₃, hrun₁.append (hrun₂.append hrun₃), hs₃⟩

/-! ## Documents -/

/-- A document that is one element. -/
inductive NsTree
  | element (tag : NsTag) (inner : NsContent)
  | empty (tag : NsTag)

namespace NsTree

def content : NsTree → NsContent
  | element tag inner => .element [] tag inner (.text [])
  | empty tag => .empty [] tag (.text [])

def serialise (d : NsTree) : Str := d.content.write []

def tag : NsTree → NsTag
  | element tag _ => tag
  | empty tag => tag

end NsTree

/-- The namespaces of a document are resolved when the calls return its events as they should be. -/
def Resolved (d : NsTree) : Prop :=
  nsCalls (d.content.meant []).length (ofStream d.serialise true) = (d.content.meant []).map .ok

/-- The first call, in front of a start tag. -/
theorem ready_first (d : NsTree) : NsReady (ofStream d.serialise true) [] [] [] d.serialise := by
  have hreads : Reads 8 (ofStream d.serialise true).cursor d.serialise :=
    ⟨Nat.zero_le _, ⟨[], .nil, rfl⟩, rfl, rfl⟩
  obtain ⟨c, r, htext⟩ : ∃ c r, d.serialise = (d.tag).opening c r := by
    cases d <;> exact ⟨_, _, rfl⟩
  obtain ⟨x, xs, hname⟩ := List.exists_cons_of_ne_nil d.tag.isName.ne
  obtain ⟨hascii, hcr, -, -, -, hquest⟩ := d.tag.isName.chars x (by rw [hname]; exact List.mem_cons_self)
  have hfirst : d.serialise = '<'.toUInt8 :: x ::
      (xs ++ restTo c d.tag.attrs d.tag.behindAttrs r) := by
    rw [htext, NsTag.opening, hname]
    rfl
  obtain ⟨c', hcall, hc'⟩ := nextToken_first (s := ofStream d.serialise true) rfl
    (hreads.of_eq hfirst) ⟨hascii, hcr, hquest⟩
  rw [← hfirst] at hc'
  exact ⟨_, hcall, hc', rfl, rfl, rfl, rfl, rfl⟩

theorem reports_tree (d : NsTree) :
    ∃ s', Reports (ofStream d.serialise true) (d.content.done [] []) s' := by
  have hs := ready_first d
  cases d with
  | element tag inner =>
    obtain ⟨s₁, hrun₁, hs₁⟩ := reports_open tag hs
    obtain ⟨s₂, pfx₂, hrun₂, hs₂⟩ := reports_content inner hs₁
    obtain ⟨s₃, hrun₃, -⟩ := reports_close tag hs₂
    exact ⟨s₃, hrun₁.append (hrun₂.append hrun₃)⟩
  | empty tag =>
    obtain ⟨s₁, hrun₁, -⟩ := reports_empty tag hs
    exact ⟨s₁, hrun₁⟩

/-- **The namespaces of a document are resolved** exactly when no element without a prefix stands
right behind one with a prefix, and for each element the URI of its prefix is kept. -/
theorem resolved_iff (d : NsTree) : Resolved d ↔ d.content.Direct [] [] := by
  obtain ⟨s', hrun⟩ := reports_tree d
  have hcalls : nsCalls (d.content.done [] []).length (ofStream d.serialise true) =
      (d.content.done [] []).map .ok := by
    have hall := hrun 0
    rwa [Nat.add_zero, nsCalls, List.append_nil] at hall
  have hlength : (d.content.meant []).length = (d.content.done [] []).length :=
    NsContent.events_length _ _ _ _ _ _ _ _ _
  rw [← NsContent.done_eq_iff, Resolved, hlength, hcalls]
  exact (List.map_injective_iff.mpr fun _ _ => Except.ok.inj).eq_iff

/-- `<b/>`. -/
def plainTag : NsTag where
  name := str "b"
  attrs := []
  behindAttrs := []
  behindEnd := []
  isName := ⟨by decide, by decide⟩
  distinct := by decide
  apart := by simp
  white := by simp [White]

/-- `<p:a xmlns:p="u"><b/></p:a>`. -/
def prefixedTree : NsTree :=
  .element
    { name := str "p:a"
      attrs := [{
        before := str " ", name := str "xmlns:p", beforeEq := [], afterEq := [], value := str "u"
        isName := ⟨by decide, by decide +kernel⟩
        white := by unfold White; decide +kernel }]
      behindAttrs := []
      behindEnd := []
      isName := ⟨by decide, by decide +kernel⟩
      distinct := by decide
      apart := by simp [str]
      white := by simp [White] }
    (.empty [] plainTag (.text []))

/-- `b` is taken for an element of the namespace of `p`. -/
theorem unprefixed_inherits :
    prefixedTree.serialise = str "<p:a xmlns:p=\"u\"><b/></p:a>" ∧
      nsCalls 4 (ofStream prefixedTree.serialise true) =
        [.ok (.startTag (str "a") (str "p") (str "u")), .ok (.startTag (str "b") (str "p") (str "u")),
          .ok (.endTag (str "b") (str "p") (str "u")), .ok (.endTag (str "a") (str "p") (str "u"))] ∧
      prefixedTree.content.meant [] =
        [.startTag (str "a") (str "p") (str "u"), .startTag (str "b") [] [], .endTag (str "b") [] [],
          .endTag (str "a") (str "p") (str "u")] ∧
      ¬ Resolved prefixedTree := by
  have hcalls : nsCalls 4 (ofStream prefixedTree.serialise true) =
      [.ok (.startTag (str "a") (str "p") (str "u")), .ok (.startTag (str "b") (str "p") (str "u")),
        .ok (.endTag (str "b") (str "p") (str "u")), .ok (.endTag (str "a") (str "p") (str "u"))] := by
    decide +kernel
  have hmeant : prefixedTree.content.meant [] =
      [.startTag (str "a") (str "p") (str "u"), .startTag (str "b") [] [], .endTag (str "b") [] [],
        .endTag (str "a") (str "p") (str "u")] := by
    decide +kernel
  refine ⟨by decide +kernel, hcalls, hmeant, fun h => ?_⟩
  unfold Resolved at h
  rw [hmeant] at h
  have hsecond := congrArg (fun l => l[1]?) (hcalls.symm.trans h)
  exact absurd hsecond (by decide)

end Wsrv.XmlPullParser
