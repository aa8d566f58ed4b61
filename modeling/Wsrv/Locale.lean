import Wsrv.Lib.SortContract
import Wsrv.Message
import Wsrv.Util

/-!
# The locale of a request

`LocaleResolver::resolve` looks for a supported locale in the route attribute
`_locale`, the query parameter `lang`, the cookie `locale` and the languages of
`Accept-Language` by descending weight.  `isLocaleSupported` returns an index or
-1; the branch of the route attribute takes the result for a truth value, so
that an unsupported attribute is returned as it is and the first supported
locale is skipped (`resolve_wanted_iff`).

`W` are the numbers a `double` may hold, NaN apart; `stod` and `std::sort` are
parameters, the first without a condition and the second with its contract.
-/

namespace Wsrv.Locale

open SortContract

variable {W : Type}

/-! ## The source -/

structure LocaleResolver where
  supported : List Str
  fallback : Str

/-- The test of `isLocaleSupported` on one supported locale: it is the string, or begins with the
same two characters. -/
def names (lang localeStr : Str) : Bool :=
  lang == localeStr || (decide (2 ≤ localeStr.length) && lang.take 2 == localeStr.take 2)

def LocaleResolver.isLocaleSupported (r : LocaleResolver) (localeStr : Str) : Int :=
  match r.supported.findIdx? (names · localeStr) with
  | some i => i
  | none => -1

/-- A `double`; `none` is NaN. -/
abbrev Double (W : Type) := Option W

structure LanguagePreference (W : Type) where
  code : Str
  weight : Double W

/-- `a.weight > b.weight`. -/
def LanguagePreference.before [LinearOrder W] (a b : LanguagePreference W) : Prop :=
  ∃ x y, a.weight = some x ∧ b.weight = some y ∧ y < x

/-- `s.find(pat)`. -/
def findStr (s pat : Str) : Option Nat :=
  (List.range (s.length + 1)).find? fun i => pat.isPrefixOf (s.drop i)

/-- One item of the header; `stod` is `none` where it throws. -/
def languagePreference [Zero W] [One W] (stod : Str → Option (Double W)) (item : Str) : LanguagePreference W :=
  match findStr item (str ";q=") with
  | none => ⟨item, some 1⟩
  | some qPos => ⟨item.take qPos, (stod (item.drop (qPos + 3))).getD (some 0)⟩

/-- `parse_accept_language`, before the sort. -/
def languagePreferences [Zero W] [One W] (stod : Str → Option (Double W)) (header : Str) :
    List (LanguagePreference W) :=
  ((pieces ','.toUInt8 header []).map fun item => item.filter fun c => !isspace c).filter
    (· ≠ []) |>.map (languagePreference stod)

/-- The loop over the languages. -/
def LocaleResolver.resolveLanguages (r : LocaleResolver) : List (LanguagePreference W) → Str
  | [] => r.fallback
  | lang :: languages =>
    let resIdx := r.isLocaleSupported lang.code
    if resIdx ≠ -1 then r.supported.getD resIdx.toNat [] else r.resolveLanguages languages

/-- `LocaleResolver::resolve`; `sort` is `std::sort` by descending weight, and `none` where its
behaviour is undefined. -/
def LocaleResolver.resolve [Zero W] [One W] (r : LocaleResolver) (stod : Str → Option (Double W))
    (sort : List (LanguagePreference W) → Option (List (LanguagePreference W)))
    (req : HTTPServerRequest) : Option Str :=
  let resolved := req.getRouteAttribute (str "_locale")
  -- the index is taken for a truth value here
  if resolved ≠ [] ∧ r.isLocaleSupported resolved ≠ 0 then some resolved
  else
    let resolved := req.getQueryAttribute (str "lang")
    let resIdx := r.isLocaleSupported resolved
    if resolved ≠ [] ∧ resIdx ≠ -1 then some (r.supported.getD resIdx.toNat [])
    else
      let resolved := req.getCookie (str "locale")
      let resIdx := r.isLocaleSupported resolved
      if resolved ≠ [] ∧ resIdx ≠ -1 then some (r.supported.getD resIdx.toNat [])
      else
        let acceptLangHeader := req.getServerAttribute (str "Accept-Language")
        if acceptLangHeader ≠ [] then
          (sort (languagePreferences stod acceptLangHeader)).map r.resolveLanguages
        else some r.fallback

/-- The contract of `std::sort` with the comparator of `parse_accept_language`. -/
def StdSort [LinearOrder W]
    (sort : List (LanguagePreference W) → Option (List (LanguagePreference W))) : Prop :=
  ∀ prefs, StrictWeakOn LanguagePreference.before prefs →
    ∃ out, sort prefs = some out ∧ Sorts LanguagePreference.before prefs out

/-! ## The first supported locale -/

/-- The supported locale that a string names, the first of them. -/
def LocaleResolver.named (r : LocaleResolver) (localeStr : Str) : Option Str :=
  r.supported.find? (names · localeStr)

/-- The index is that of the first locale named, or -1 where there is none. -/
theorem isLocaleSupported_cases (r : LocaleResolver) (s : Str) :
    (r.named s = none ∧ r.isLocaleSupported s = -1) ∨
      ∃ i : Nat, ∃ lang, r.isLocaleSupported s = i ∧ r.supported.getD i [] = lang ∧
        r.named s = some lang := by
  have hfind : ∀ l : List Str, l.find? (names · s) = (l.findIdx? (names · s)).bind (l[·]?) := by
    intro l
    induction l with
    | nil => rfl
    | cons lang l ih =>
      rw [List.find?_cons, List.findIdx?_cons]
      cases h : names lang s with
      | true => simp
      | false => simp [ih, Option.bind_map]
  unfold LocaleResolver.named LocaleResolver.isLocaleSupported
  rw [hfind]
  cases h : r.supported.findIdx? (names · s) with
  | none => exact .inl ⟨rfl, rfl⟩
  | some i =>
    obtain ⟨hlt, -⟩ := List.findIdx?_eq_some_iff_getElem.mp h
    refine .inr ⟨i, r.supported[i], rfl, ?_, ?_⟩
    · simp [hlt]
    · simp [hlt]

theorem isLocaleSupported_none {r : LocaleResolver} {s : Str} (h : r.named s = none) :
    r.isLocaleSupported s = -1 := by
  rcases isLocaleSupported_cases r s with ⟨-, hidx⟩ | ⟨i, lang, -, -, hnamed⟩
  · exact hidx
  · rw [h] at hnamed
    cases hnamed

theorem isLocaleSupported_some {r : LocaleResolver} {s lang : Str} (h : r.named s = some lang) :
    r.isLocaleSupported s ≠ -1 ∧ r.supported.getD (r.isLocaleSupported s).toNat [] = lang := by
  rcases isLocaleSupported_cases r s with ⟨hnamed, -⟩ | ⟨i, lang', hidx, hget, hnamed⟩
  · rw [h] at hnamed
    cases hnamed
  · obtain rfl := Option.some.inj (h.symm.trans hnamed)
    exact ⟨by omega, by rw [hidx]; exact hget⟩

theorem named_mem {r : LocaleResolver} {s lang : Str} (h : r.named s = some lang) :
    lang ∈ r.supported ∧ names lang s = true :=
  ⟨List.mem_of_find?_eq_some h, List.find?_some (p := (names · s)) h⟩

theorem resolveLanguages_none {r : LocaleResolver} {languages : List (LanguagePreference W)}
    (h : ∀ e ∈ languages, r.named e.code = none) : r.resolveLanguages languages = r.fallback := by
  induction languages with
  | nil => rfl
  | cons e languages ih =>
    rw [LocaleResolver.resolveLanguages, isLocaleSupported_none (h e List.mem_cons_self)]
    exact ih fun e' he' => h e' (List.mem_cons_of_mem _ he')

/-- The loop takes the first language that names a supported locale. -/
theorem resolveLanguages_first {r : LocaleResolver} {pre post : List (LanguagePreference W)}
    {e : LanguagePreference W} {lang : Str} (hpre : ∀ e ∈ pre, r.named e.code = none)
    (he : r.named e.code = some lang) : r.resolveLanguages (pre ++ e :: post) = lang := by
  induction pre with
  | nil =>
    obtain ⟨hidx, hget⟩ := isLocaleSupported_some he
    rw [List.nil_append, LocaleResolver.resolveLanguages, if_pos hidx, hget]
  | cons a pre ih =>
    rw [List.cons_append, LocaleResolver.resolveLanguages,
      isLocaleSupported_none (hpre a List.mem_cons_self)]
    exact ih fun e' he' => hpre e' (List.mem_cons_of_mem _ he')

/-! ## The sources in their order -/

section

variable [LinearOrder W]

/-- The string is one of the source that names a supported locale. -/
def LocaleResolver.Names (r : LocaleResolver) (s : Str) : Prop := s ≠ [] ∧ (r.named s).isSome

instance (r : LocaleResolver) (s : Str) : Decidable (r.Names s) :=
  inferInstanceAs (Decidable (_ ∧ _))

/-- A locale picked from the first of the sources `srcs` that names a supported one, then from a
language with the highest weight among those that do, and else the fallback. -/
def LocaleResolver.From (r : LocaleResolver) (pick : Str → Str → Prop)
    (prefs : List (LanguagePreference W)) : List Str → Str → Prop
  | [], x =>
    ((∀ e ∈ prefs, r.named e.code = none) ∧ x = r.fallback) ∨
      ∃ e ∈ prefs, (r.named e.code).isSome ∧ pick e.code x ∧
        ∀ e' ∈ prefs, (r.named e'.code).isSome → ¬ e'.before e
  | s :: srcs, x => if r.Names s then pick s x else r.From pick prefs srcs x

/-- The resolver may take any supported locale that the source names. -/
def LocaleResolver.Wanted (r : LocaleResolver) (s x : Str) : Prop :=
  x ∈ r.supported ∧ names x s = true

/-- A locale that is wanted is supported, or the fallback. -/
theorem from_closed {r : LocaleResolver} {prefs : List (LanguagePreference W)} {srcs : List Str}
    {x : Str} (h : r.From r.Wanted prefs srcs x) : x = r.fallback ∨ x ∈ r.supported := by
  induction srcs with
  | nil =>
    rcases h with ⟨-, hx⟩ | ⟨e, -, -, hpick, -⟩
    · exact .inl hx
    · exact .inr hpick.1
  | cons s srcs ih =>
    unfold LocaleResolver.From at h
    split at h
    · exact .inr h.1
    · exact ih h

theorem From.mono {r : LocaleResolver} {prefs : List (LanguagePreference W)} {srcs : List Str}
    {pick pick' : Str → Str → Prop} (hpick : ∀ s x, pick s x → pick' s x) {x : Str}
    (h : r.From pick prefs srcs x) : r.From pick' prefs srcs x := by
  induction srcs with
  | nil =>
    rcases h with h | ⟨e, he, hnamed, hp, hmax⟩
    · exact .inl h
    · exact .inr ⟨e, he, hnamed, hpick _ _ hp, hmax⟩
  | cons s srcs ih =>
    unfold LocaleResolver.From at h ⊢
    split
    · rename_i hn
      rw [if_pos hn] at h
      exact hpick _ _ h
    · rename_i hn
      rw [if_neg hn] at h
      exact ih h

theorem from_unnamed {r : LocaleResolver} {prefs : List (LanguagePreference W)} {srcs : List Str}
    {pick : Str → Str → Prop} (hsrcs : ∀ s ∈ srcs, ¬ r.Names s)
    (hprefs : ∀ e ∈ prefs, r.named e.code = none) : r.From pick prefs srcs r.fallback := by
  induction srcs with
  | nil => exact .inl ⟨hprefs, rfl⟩
  | cons s srcs ih =>
    rw [LocaleResolver.From, if_neg (hsrcs s List.mem_cons_self)]
    exact ih fun s' hs' => hsrcs s' (List.mem_cons_of_mem _ hs')

/-- A locale that is not supported is only the fallback, where no source names one. -/
theorem from_unsupported {r : LocaleResolver} {prefs : List (LanguagePreference W)}
    {srcs : List Str} {x : Str} (hx : x ∉ r.supported) (h : r.From r.Wanted prefs srcs x) :
    x = r.fallback ∧ (∀ s ∈ srcs, ¬ r.Names s) ∧ ∀ e ∈ prefs, r.named e.code = none := by
  induction srcs with
  | nil =>
    rcases h with ⟨hprefs, rfl⟩ | ⟨e, -, -, hpick, -⟩
    · exact ⟨rfl, by simp, hprefs⟩
    · exact absurd hpick.1 hx
  | cons s srcs ih =>
    unfold LocaleResolver.From at h
    split at h
    · exact absurd h.1 hx
    · rename_i hn
      obtain ⟨heq, hsrcs, hprefs⟩ := ih h
      exact ⟨heq, by simpa [hn] using hsrcs, hprefs⟩

/-- A supported locale names itself. -/
theorem named_self {r : LocaleResolver} {s : Str} (h : s ∈ r.supported) : (r.named s).isSome :=
  List.find?_isSome.mpr ⟨s, h, by simp [names]⟩

end

/-! ## The resolved locale -/

/-- What the languages resolve to once they are sorted. -/
theorem resolveLanguages_from [LinearOrder W] {r : LocaleResolver} {prefs out : List (LanguagePreference W)}
    (hweak : StrictWeakOn LanguagePreference.before prefs)
    (h : Sorts LanguagePreference.before prefs out) :
    r.From (fun s x => r.named s = some x) prefs [] (r.resolveLanguages out) := by
  by_cases hnone : ∀ e ∈ prefs, r.named e.code = none
  · exact .inl ⟨hnone, resolveLanguages_none fun e he => hnone e (h.1.mem_iff.mp he)⟩
  · have hsome : (out.find? fun e => (r.named e.code).isSome) ≠ none := by
      rw [ne_eq, List.find?_eq_none]
      intro hall
      exact hnone fun e he => by simpa using hall e (h.1.mem_iff.mpr he)
    obtain ⟨e, he⟩ := Option.ne_none_iff_exists'.mp hsome
    obtain ⟨hnamed, pre, post, rfl, hpre⟩ := List.find?_eq_some_iff_append.mp he
    have hmem : e ∈ prefs := h.1.mem_iff.mp (by simp)
    obtain ⟨lang, hlang⟩ := Option.isSome_iff_exists.mp hnamed
    have hfirst : r.resolveLanguages (pre ++ e :: post) = lang :=
      resolveLanguages_first (fun e he => by simpa using hpre e he) hlang
    refine .inr ⟨e, hmem, hnamed, by rw [hfirst]; exact hlang, fun e' he' hnamed' => ?_⟩
    rcases List.mem_append.mp (h.1.mem_iff.mpr he') with hin | hin
    · exact absurd hnamed' (by simpa using hpre e' hin)
    · rcases List.mem_cons.mp hin with rfl | hin
      · exact fun hb => hweak.asymm _ hmem _ hmem hb hb
      · exact (List.pairwise_cons.mp (List.pairwise_append.mp h.2).2.1).1 e' hin

/-- A sort that meets the contract may leave anything on one list that the contract allows. -/
theorem exists_stdSort [LinearOrder W] {prefs : List (LanguagePreference W)}
    {v : Option (List (LanguagePreference W))}
    (h : StrictWeakOn LanguagePreference.before prefs →
      ∃ out, v = some out ∧ Sorts LanguagePreference.before prefs out) :
    ∃ sort, StdSort sort ∧ sort prefs = v := by
  classical
  refine ⟨fun l => if l = prefs then v else
    if hl : StrictWeakOn LanguagePreference.before l then some (exists_sorts hl).choose else none,
    fun l hl => ?_, if_pos rfl⟩
  by_cases heq : l = prefs
  · subst heq
    simpa using h hl
  · exact ⟨_, (if_neg heq).trans (dif_pos hl), (exists_sorts hl).choose_spec⟩

/-- Some sort meets the contract. -/
theorem exists_sort [LinearOrder W] : ∃ sort, @StdSort W _ sort := by
  obtain ⟨sort, hsort, -⟩ := @exists_stdSort W _ [] (some []) fun _ =>
    ⟨[], rfl, List.Perm.refl _, List.Pairwise.nil⟩
  exact ⟨sort, hsort⟩

section

variable [Zero W] [One W]

/-- The sources behind the route attribute. -/
def otherSources (req : HTTPServerRequest) : List Str :=
  [req.getQueryAttribute (str "lang"), req.getCookie (str "locale")]

/-- The languages of `Accept-Language`. -/
def acceptedLanguages (stod : Str → Option (Double W)) (req : HTTPServerRequest) :
    List (LanguagePreference W) :=
  languagePreferences stod (req.getServerAttribute (str "Accept-Language"))

theorem acceptedLanguages_nil (stod : Str → Option (Double W)) {req : HTTPServerRequest}
    (h : req.getServerAttribute (str "Accept-Language") = []) : acceptedLanguages stod req = [] := by
  rw [acceptedLanguages, h]
  rfl

/-- The part of `resolve` behind the branch of the route attribute. -/
def LocaleResolver.resolveOthers (r : LocaleResolver) (stod : Str → Option (Double W))
    (sort : List (LanguagePreference W) → Option (List (LanguagePreference W)))
    (req : HTTPServerRequest) : List Str → Option Str
  | [] =>
    if req.getServerAttribute (str "Accept-Language") ≠ [] then
      (sort (acceptedLanguages stod req)).map r.resolveLanguages
    else some r.fallback
  | s :: srcs =>
    if r.Names s then r.named s else r.resolveOthers stod sort req srcs

theorem resolve_source (r : LocaleResolver) (s : Str) (rest : Option Str) :
    (if s ≠ [] ∧ r.isLocaleSupported s ≠ -1 then
        some (r.supported.getD (r.isLocaleSupported s).toNat []) else rest) =
      if r.Names s then r.named s else rest := by
  by_cases hn : r.Names s
  · obtain ⟨lang, h⟩ := Option.isSome_iff_exists.mp hn.2
    obtain ⟨hidx, hget⟩ := isLocaleSupported_some h
    rw [if_pos ⟨hn.1, hidx⟩, if_pos hn, hget, h]
  · rw [if_neg hn, if_neg]
    rintro ⟨hs, hidx⟩
    exact hn ⟨hs, Option.isSome_iff_ne_none.mpr fun h => hidx (isLocaleSupported_none h)⟩

theorem resolve_eq (r : LocaleResolver) (stod : Str → Option (Double W))
    (sort : List (LanguagePreference W) → Option (List (LanguagePreference W)))
    (req : HTTPServerRequest) :
    r.resolve stod sort req =
      if req.getRouteAttribute (str "_locale") ≠ [] ∧
          r.isLocaleSupported (req.getRouteAttribute (str "_locale")) ≠ 0 then
        some (req.getRouteAttribute (str "_locale"))
      else r.resolveOthers stod sort req (otherSources req) := by
  unfold LocaleResolver.resolve
  simp only [resolve_source]
  rfl

variable [LinearOrder W]

/-- The comparator orders the languages, if they are asked at all. -/
def SortDefined (r : LocaleResolver) (stod : Str → Option (Double W)) (req : HTTPServerRequest)
    (srcs : List Str) : Prop :=
  (∀ s ∈ srcs, ¬ r.Names s) → StrictWeakOn LanguagePreference.before (acceptedLanguages stod req)

/-- **The other sources are asked in their order.** -/
theorem resolveOthers_from (r : LocaleResolver) {stod : Str → Option (Double W)}
    {sort : List (LanguagePreference W) → Option (List (LanguagePreference W))}
    (hsort : StdSort sort) {req : HTTPServerRequest} {srcs : List Str}
    (hdef : SortDefined r stod req srcs) :
    ∃ x, r.resolveOthers stod sort req srcs = some x ∧
      r.From (fun s x => r.named s = some x) (acceptedLanguages stod req) srcs x := by
  induction srcs with
  | nil =>
    rw [LocaleResolver.resolveOthers]
    split
    · have hweak := hdef (by simp)
      obtain ⟨out, hout, hs⟩ := hsort _ hweak
      exact ⟨r.resolveLanguages out, by rw [hout]; rfl, resolveLanguages_from hweak hs⟩
    · rename_i hempty
      rw [acceptedLanguages_nil stod (not_not.mp hempty)]
      exact ⟨r.fallback, rfl, .inl ⟨by simp, rfl⟩⟩
  | cons s srcs ih =>
    unfold LocaleResolver.resolveOthers LocaleResolver.From
    split
    · rename_i hn
      obtain ⟨lang, hlang⟩ := Option.isSome_iff_exists.mp hn.2
      exact ⟨lang, hlang, hlang⟩
    · rename_i hn
      exact ih fun hall => hdef (by simpa [hn] using hall)

/-- Every locale that the order of equal weights leaves open is resolved to by some sort. -/
theorem resolveOthers_every (r : LocaleResolver) {stod : Str → Option (Double W)}
    {req : HTTPServerRequest} {srcs : List Str} (hdef : SortDefined r stod req srcs) {x : Str}
    (h : r.From (fun s x => r.named s = some x) (acceptedLanguages stod req) srcs x) :
    ∃ sort, StdSort sort ∧ r.resolveOthers stod sort req srcs = some x := by
  induction srcs with
  | nil =>
    have hweak := hdef (by simp)
    rcases h with ⟨hnone, rfl⟩ | ⟨e, he, hnamed, hx, hmax⟩
    · obtain ⟨out, hout⟩ := exists_sorts hweak
      obtain ⟨sort, hsort, hv⟩ := exists_stdSort fun _ => ⟨out, rfl, hout⟩
      refine ⟨sort, hsort, ?_⟩
      rw [LocaleResolver.resolveOthers, hv, Option.map_some,
        resolveLanguages_none fun e he => hnone e (hout.1.mem_iff.mp he)]
      split <;> rfl
    · obtain ⟨pre, post, hs, hpre⟩ := exists_sorts_first hweak he
      obtain ⟨sort, hsort, hv⟩ := exists_stdSort fun _ => ⟨pre ++ e :: post, rfl, hs⟩
      refine ⟨sort, hsort, ?_⟩
      have hheader : req.getServerAttribute (str "Accept-Language") ≠ [] := by
        intro hempty
        rw [acceptedLanguages_nil stod hempty] at he
        cases he
      rw [LocaleResolver.resolveOthers, if_pos hheader, hv, Option.map_some]
      refine congrArg some (resolveLanguages_first (fun b hb => ?_) hx)
      -- what stands before the language precedes it, so that it names nothing
      by_contra hb'
      have hmem : b ∈ acceptedLanguages stod req := hs.1.mem_iff.mp (List.mem_append_left _ hb)
      exact hmax b hmem (Option.isSome_iff_ne_none.mpr hb') (hpre b hb)
  | cons s srcs ih =>
    unfold LocaleResolver.From at h
    by_cases hn : r.Names s
    · rw [if_pos hn] at h
      obtain ⟨sort, hsort⟩ := @exists_sort W _
      exact ⟨sort, hsort, by rw [LocaleResolver.resolveOthers, if_pos hn, h]⟩
    · rw [if_neg hn] at h
      obtain ⟨sort, hsort, hx⟩ := ih (fun hall => hdef (by simpa [hn] using hall)) h
      exact ⟨sort, hsort, by rw [LocaleResolver.resolveOthers, if_neg hn, hx]⟩

/-- Where the comparator is no order, a sort may leave nothing. -/
theorem resolveOthers_undefined (r : LocaleResolver) {stod : Str → Option (Double W)}
    {req : HTTPServerRequest} {srcs : List Str} (hdef : ¬ SortDefined r stod req srcs) :
    ∃ sort, StdSort sort ∧ r.resolveOthers stod sort req srcs = none := by
  obtain ⟨hall, hweak⟩ := Classical.not_imp.mp hdef
  obtain ⟨sort, hsort, hv⟩ := @exists_stdSort W _ _ none fun h => absurd h hweak
  refine ⟨sort, hsort, ?_⟩
  clear hdef
  induction srcs with
  | nil =>
    rw [LocaleResolver.resolveOthers, if_pos, hv]
    · rfl
    · intro hempty
      rw [acceptedLanguages_nil stod hempty] at hweak
      exact hweak ⟨by simp, by simp⟩
  | cons s srcs ih =>
    rw [LocaleResolver.resolveOthers, if_neg (hall s List.mem_cons_self)]
    have hrest : ∀ s ∈ srcs, ¬ r.Names s := fun s' hs' => hall s' (List.mem_cons_of_mem _ hs')
    exact ih hrest

/-! ## The branch of the route attribute -/

/-- When the branch of the route attribute does no harm.  With the index -1 the attribute is
returned as it is; with the index 0 it is passed over. -/
def LocaleResolver.Harmless (r : LocaleResolver) (stod : Str → Option (Double W))
    (req : HTTPServerRequest) : Prop :=
  let attr := req.getRouteAttribute (str "_locale")
  if attr = [] then SortDefined r stod req (otherSources req)
  else if r.isLocaleSupported attr = -1 then
    attr = r.fallback ∧ (∀ s ∈ otherSources req, ¬ r.Names s) ∧
      ∀ e ∈ acceptedLanguages stod req, r.named e.code = none
  else if r.isLocaleSupported attr = 0 then
    SortDefined r stod req (otherSources req) ∧
      ∀ x, r.From (fun s x => r.named s = some x) (acceptedLanguages stod req) (otherSources req) x →
        r.Wanted attr x
  else attr ∈ r.supported

/-- What holds of the locale from the other sources, whatever the sort. -/
theorem resolveOthers_iff (r : LocaleResolver) (stod : Str → Option (Double W))
    (req : HTTPServerRequest) (srcs : List Str) (p : Str → Prop) :
    (∀ sort, StdSort sort → ∃ x, r.resolveOthers stod sort req srcs = some x ∧ p x) ↔
      SortDefined r stod req srcs ∧
        ∀ x, r.From (fun s x => r.named s = some x) (acceptedLanguages stod req) srcs x → p x := by
  constructor
  · intro h
    have hdef : SortDefined r stod req srcs := by
      by_contra hdef
      obtain ⟨sort, hsort, hnone⟩ := resolveOthers_undefined r hdef
      obtain ⟨x, hx, -⟩ := h sort hsort
      rw [hnone] at hx
      cases hx
    refine ⟨hdef, fun x hx => ?_⟩
    obtain ⟨sort, hsort, hsome⟩ := resolveOthers_every r hdef hx
    obtain ⟨x', hx', hp⟩ := h sort hsort
    rwa [Option.some.inj (hsome.symm.trans hx')]
  · rintro ⟨hdef, hp⟩ sort hsort
    obtain ⟨x, hx, hfrom⟩ := resolveOthers_from r hsort hdef
    exact ⟨x, hx, hp x hfrom⟩

/-- **The resolved locale is one that its source names** exactly where the branch of the route
attribute does no harm. -/
theorem resolve_wanted_iff (r : LocaleResolver) (stod : Str → Option (Double W))
    (req : HTTPServerRequest) :
    (∀ sort, StdSort sort → ∃ x, r.resolve stod sort req = some x ∧
      (x = r.fallback ∨ x ∈ r.supported) ∧
      r.From r.Wanted (acceptedLanguages stod req)
        (req.getRouteAttribute (str "_locale") :: otherSources req) x) ↔ r.Harmless stod req := by
  simp only [resolve_eq]
  unfold LocaleResolver.Harmless
  generalize req.getRouteAttribute (str "_locale") = attr
  simp only [LocaleResolver.From]
  by_cases hempty : attr = []
  · -- the attribute is not set
    subst hempty
    have hn : ¬ r.Names [] := fun h => h.1 rfl
    simp only [ne_eq, not_true_eq_false, false_and, if_false, if_true, hn, resolveOthers_iff]
    refine and_iff_left fun x hx => ?_
    have hwanted := From.mono (fun s x h => named_mem (r := r) h) hx
    exact ⟨from_closed hwanted, hwanted⟩
  rw [if_neg hempty]
  rcases isLocaleSupported_cases r attr with ⟨hnamed, hidx⟩ | ⟨i, lang, hidx, hget, hnamed⟩
  · -- the attribute names no supported locale and is returned
    have hn : ¬ r.Names attr := fun h => Option.isSome_iff_ne_none.mp h.2 hnamed
    have hmem : attr ∉ r.supported := fun h => Option.isSome_iff_ne_none.mp (named_self h) hnamed
    have hbranch : attr ≠ [] ∧ (-1 : Int) ≠ 0 := ⟨hempty, by decide⟩
    simp only [hidx, if_true, if_pos hbranch, if_neg hn]
    constructor
    · intro h
      obtain ⟨sort, hsort⟩ := @exists_sort W _
      obtain ⟨x, hx, -, hfrom⟩ := h sort hsort
      obtain rfl := Option.some.inj hx
      exact from_unsupported hmem hfrom
    · rintro ⟨heq, hsrcs, hprefs⟩ sort -
      refine ⟨attr, rfl, .inl heq, ?_⟩
      rw [heq]
      exact from_unnamed hsrcs hprefs
  · have hn : r.Names attr := ⟨hempty, by rw [hnamed]; rfl⟩
    rw [hidx, if_neg (by omega)]
    simp only [if_pos hn]
    by_cases hzero : (i : Int) = 0
    · -- the first supported locale is passed over
      have hbranch : ¬ (attr ≠ [] ∧ (i : Int) ≠ 0) := fun h => h.2 hzero
      simp only [if_pos hzero, if_neg hbranch, resolveOthers_iff]
      refine and_congr_right fun _ => forall₂_congr fun x _ => ?_
      exact ⟨And.right, fun h => ⟨.inr h.1, h⟩⟩
    · -- any other is returned as the attribute spells it
      have hbranch : attr ≠ [] ∧ (i : Int) ≠ 0 := ⟨hempty, hzero⟩
      simp only [if_neg hzero, if_pos hbranch]
      constructor
      · intro h
        obtain ⟨sort, hsort⟩ := @exists_sort W _
        obtain ⟨x, hx, -, hwanted⟩ := h sort hsort
        obtain rfl := Option.some.inj hx
        exact hwanted.1
      · intro hmem sort _
        exact ⟨attr, rfl, .inr hmem, hmem, by simp [names]⟩

end

/-- A route captured what is no locale; without `Accept-Language`. -/
def captured (attr lang : Str) : HTTPServerRequest :=
  { HTTPServerRequest.init with
    ROUTE := HTTPServerRequest.init.ROUTE.insert (str "_locale") attr
    GET := HTTPServerRequest.init.GET.insert (str "lang") lang }

def english : LocaleResolver := ⟨[str "en_US", str "el_GR"], str "en_US"⟩

/-- What is no locale is passed on, and the first locale gives way to the query. -/
theorem captured_resolved :
    ((∀ stod : Str → Option (Double Nat), ∀ sort,
        english.resolve stod sort (captured (str "') ||") []) = some (str "') ||")) ∧
      ¬ (str "') ||" = english.fallback ∨ str "') ||" ∈ english.supported)) ∧
    (∀ stod : Str → Option (Double Nat), ∀ sort,
        english.resolve stod sort (captured (str "en_US") (str "el")) = some (str "el_GR")) ∧
      ¬ names (str "el_GR") (str "en_US") :=
  ⟨⟨fun _ _ => rfl, by decide⟩, fun _ _ => rfl, by decide⟩

end Wsrv.Locale
