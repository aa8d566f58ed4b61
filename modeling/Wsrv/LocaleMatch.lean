import Wsrv.Locale

/-!
# Exact locales and the weights of languages

`isLocaleSupported` tests for the string and for its first two characters in one
pass, so that a locale is found under its full name exactly where no locale of
the same language stands before it (`exactLocale_iff`).

The weights that `parse_accept_language` sorts by come from `std::stod`, which
reads `nan` as well.  NaN is equivalent to every weight, and the comparator is
an order only where there is none or where all the others are equal
(`languages_strictWeak_iff`).
-/

namespace Wsrv.Locale

open SortContract

variable {W : Type}

/-! ## Exact locales -/

/-- No supported locale before the place `i` has the language of `s`. -/
def LocaleResolver.FirstOfLanguage (r : LocaleResolver) (i : Nat) (s : Str) : Prop :=
  s.length < 2 ∨ ∀ lang ∈ r.supported.take i, lang.take 2 ≠ s.take 2

/-- The request asks for `s` by its full name, where nothing that is looked at before names a
supported locale. -/
inductive AsksFor [LinearOrder W] [Zero W] [One W] (r : LocaleResolver)
    (stod : Str → Option (Double W)) (req : HTTPServerRequest) (s : Str) : Prop
  | lang (h : req.getQueryAttribute (str "lang") = s)
  | cookie (hlang : ¬ r.Names (req.getQueryAttribute (str "lang")))
      (h : req.getCookie (str "locale") = s)
  /-- Every other language that names a supported locale has a smaller weight. -/
  | language (hsources : ∀ t ∈ otherSources req, ¬ r.Names t)
      (hweak : StrictWeakOn LanguagePreference.before (acceptedLanguages stod req))
      (e : LanguagePreference W) (he : e ∈ acceptedLanguages stod req) (hcode : e.code = s)
      (hfirst : ∀ e' ∈ acceptedLanguages stod req, e'.code ≠ s → (r.named e'.code).isSome →
        e.before e')

/-- The locale at the place `i` is found there, and whoever asks for it receives it. -/
structure ExactLocale (W : Type) [LinearOrder W] [Zero W] [One W] (r : LocaleResolver) (i : Nat)
    (s : Str) : Prop where
  index : r.isLocaleSupported s = i
  received : s ≠ [] → ∀ (stod : Str → Option (Double W)) (sort : _) (req : HTTPServerRequest),
    StdSort sort → req.getRouteAttribute (str "_locale") = [] → AsksFor r stod req s →
      r.resolve stod sort req = some s

theorem isLocaleSupported_eq_iff {r : LocaleResolver} {s : Str} {i : Nat}
    (hnodup : r.supported.Nodup) (hs : r.supported[i]? = some s) :
    r.isLocaleSupported s = i ↔ r.FirstOfLanguage i s := by
  obtain ⟨hlt, hget⟩ := List.getElem?_eq_some_iff.mp hs
  have hself : names (r.supported[i]) s = true := by simp [names, hget]
  have hidx : r.isLocaleSupported s = i ↔ r.supported.findIdx? (names · s) = some i := by
    unfold LocaleResolver.isLocaleSupported
    cases h : r.supported.findIdx? (names · s) with
    | none => simp
    | some k => simp
  rw [hidx, List.findIdx?_eq_some_iff_getElem]
  -- of the locales before this one only the language can be the same
  have hnames : ∀ j (hj : j < i) (hjl : j < r.supported.length), names r.supported[j] s = true ↔
      2 ≤ s.length ∧ r.supported[j].take 2 = s.take 2 := by
    intro j hj hjl
    have hne : r.supported[j] ≠ s := by
      intro heq
      have hsame : j = i := hnodup.getElem_inj_iff.mp (heq.trans hget.symm)
      omega
    simp [names, hne]
  constructor
  · rintro ⟨_, -, hbefore⟩
    by_cases hlen : s.length < 2
    · exact .inl hlen
    · refine .inr fun lang hlang heq => ?_
      obtain ⟨j, hj, rfl⟩ := List.mem_take_iff_getElem.mp hlang
      have hji : j < i := by omega
      exact hbefore j hji ((hnames j hji (hji.trans hlt)).mpr ⟨by omega, heq⟩)
  · intro h
    refine ⟨hlt, hself, fun j hj hname => ?_⟩
    obtain ⟨hlen, heq⟩ := (hnames j hj (hj.trans hlt)).mp hname
    rcases h with h | h
    · omega
    · exact h _ (List.mem_take_iff_getElem.mpr ⟨j, by omega, rfl⟩) heq

/-- A locale that is found at its place names itself. -/
theorem named_of_index {r : LocaleResolver} {s : Str} {i : Nat} (hs : r.supported[i]? = some s)
    (h : r.isLocaleSupported s = i) : r.named s = some s := by
  rcases isLocaleSupported_cases r s with ⟨-, hidx⟩ | ⟨k, lang, hidx, hget, hnamed⟩
  · rw [h] at hidx
    omega
  · obtain rfl : i = k := by
      rw [h] at hidx
      exact_mod_cast hidx
    rw [List.getD_eq_getElem?_getD, hs, Option.getD_some] at hget
    rw [hnamed, hget]

/-- Whoever asks for a locale that names itself receives it. -/
theorem resolve_named [LinearOrder W] [Zero W] [One W] {r : LocaleResolver} {s : Str}
    (hs : r.named s = some s) (hne : s ≠ []) {stod : Str → Option (Double W)}
    {sort : List (LanguagePreference W) → Option (List (LanguagePreference W))}
    {req : HTTPServerRequest} (hsort : StdSort sort)
    (hattr : req.getRouteAttribute (str "_locale") = []) (h : AsksFor r stod req s) :
    r.resolve stod sort req = some s := by
  have hnames : r.Names s := ⟨hne, by rw [hs]; rfl⟩
  have hothers : r.resolve stod sort req = r.resolveOthers stod sort req (otherSources req) := by
    rw [resolve_eq, hattr, if_neg fun hbranch => hbranch.1 rfl]
  rw [hothers]
  cases h with
  | lang h => rw [otherSources, LocaleResolver.resolveOthers, h, if_pos hnames, hs]
  | cookie hlang h =>
    rw [otherSources, LocaleResolver.resolveOthers, if_neg hlang, LocaleResolver.resolveOthers, h,
      if_pos hnames, hs]
  | language hsources hweak e he hcode hfirst =>
    obtain ⟨x, hx, hfrom⟩ := resolveOthers_from r hsort
      (show SortDefined r stod req [] from fun _ => hweak)
    have hempty : r.resolveOthers stod sort req (otherSources req) =
        r.resolveOthers stod sort req [] := by
      have hlang := hsources (req.getQueryAttribute (str "lang")) (by simp [otherSources])
      have hcookie := hsources (req.getCookie (str "locale")) (by simp [otherSources])
      have hcons : ∀ t srcs, ¬ r.Names t →
          r.resolveOthers stod sort req (t :: srcs) = r.resolveOthers stod sort req srcs :=
        fun t srcs ht => if_neg ht
      rw [otherSources, hcons _ _ hlang, hcons _ _ hcookie]
    rw [hempty, hx]
    rcases hfrom with ⟨hnone, -⟩ | ⟨e', he', hnamed, hpick, hmax⟩
    · have hcontra := hnone e he
      rw [hcode, hs] at hcontra
      cases hcontra
    · by_cases hsame : e'.code = s
      · rw [hsame, hs] at hpick
        exact hpick.symm
      · have hesome : (r.named e.code).isSome := by rw [hcode, hs]; rfl
        exact absurd (hfirst e' he' hsame hnamed) (hmax e he hesome)

/-- **A supported locale is found and received under its full name** exactly where no locale of its
language stands before it. -/
theorem exactLocale_iff [LinearOrder W] [Zero W] [One W] {r : LocaleResolver} {i : Nat} {s : Str}
    (hnodup : r.supported.Nodup) (hs : r.supported[i]? = some s) :
    ExactLocale W r i s ↔ r.FirstOfLanguage i s := by
  rw [← isLocaleSupported_eq_iff hnodup hs]
  constructor
  · intro h
    exact h.index
  · intro h
    exact ⟨h, fun hne stod sort req hsort hattr hasks =>
      resolve_named (named_of_index hs h) hne hsort hattr hasks⟩

/-- Two variants of one language. -/
def variants : LocaleResolver := ⟨[str "en_US", str "en_GB", str "el_GR"], str "en_US"⟩

theorem variants_exact : ExactLocale Nat variants 2 (str "el_GR") :=
  (exactLocale_iff (by decide) rfl).mpr (.inr (by decide))

/-- Whoever asks for the second receives the first. -/
theorem variants_shadowed :
    variants.isLocaleSupported (str "en_GB") = 0 ∧
      (∀ (stod : Str → Option (Double Nat)) (sort : _),
        variants.resolve stod sort (captured [] (str "en_GB")) = some (str "en_US")) ∧
      ¬ ExactLocale Nat variants 1 (str "en_GB") := by
  refine ⟨by decide, fun _ _ => rfl, fun h => ?_⟩
  exact absurd h.index (by decide)

/-! ## The weights -/

/-- The items of the header. -/
def languageItems (header : Str) : List Str :=
  ((pieces ','.toUInt8 header []).map fun item => item.filter fun c => !isspace c).filter (· ≠ [])

/-- The number behind the first `;q=` of an item. -/
def quality [Zero W] [One W] (stod : Str → Option (Double W)) (item : Str) : Double W :=
  match findStr item (str ";q=") with
  | none => some 1
  | some qPos => (stod (item.drop (qPos + 3))).getD (some 0)

theorem languagePreference_weight [Zero W] [One W] (stod : Str → Option (Double W)) (item : Str) :
    (languagePreference stod item).weight = quality stod item := by
  unfold languagePreference quality
  cases findStr item (str ";q=") with
  | none => rfl
  | some qPos => rfl

theorem forall_languagePreferences [Zero W] [One W] (stod : Str → Option (Double W)) (header : Str)
    (p : Double W → Prop) :
    (∀ e ∈ languagePreferences stod header, p e.weight) ↔
      ∀ item ∈ languageItems header, p (quality stod item) := by
  have hlist : languagePreferences stod header =
      (languageItems header).map (languagePreference stod) := rfl
  rw [hlist, List.forall_mem_map]
  simp only [languagePreference_weight]

section

variable [LinearOrder W]

theorem before_asymm {a b : LanguagePreference W} (h : a.before b) : ¬ b.before a := by
  rintro ⟨y', x', hy', hx', hlt'⟩
  obtain ⟨x, y, hx, hy, hlt⟩ := h
  obtain rfl := Option.some.inj (hx.symm.trans hx')
  obtain rfl := Option.some.inj (hy.symm.trans hy')
  exact lt_asymm hlt hlt'

/-- NaN comes neither before nor behind anything. -/
theorem not_before_nan {a b : LanguagePreference W} (h : b.weight = none) :
    ¬ a.before b ∧ ¬ b.before a := by
  constructor
  · rintro ⟨x, y, -, hy, -⟩
    rw [h] at hy
    cases hy
  · rintro ⟨x, y, hx, -, -⟩
    rw [h] at hx
    cases hx

/-- **The comparator is an order** exactly where no weight is NaN or all the others are equal. -/
theorem strictWeak_iff (prefs : List (LanguagePreference W)) :
    StrictWeakOn LanguagePreference.before prefs ↔
      (∀ e ∈ prefs, e.weight ≠ none) ∨
        ∀ a ∈ prefs, ∀ b ∈ prefs, ∀ x y, a.weight = some x → b.weight = some y → x = y := by
  constructor
  · intro h
    by_contra hcond
    obtain ⟨hnan, hdiffer⟩ := not_or.mp hcond
    obtain ⟨e, he, hnone⟩ : ∃ e ∈ prefs, e.weight = none := by
      by_contra hno
      exact hnan fun e he hnone => hno ⟨e, he, hnone⟩
    -- NaN stands between two different weights
    refine hdiffer fun a ha b hb x y hx hy => ?_
    have hba := h.negTrans b hb e he a ha (not_before_nan hnone).1 (not_before_nan hnone).2
    have hab := h.negTrans a ha e he b hb (not_before_nan hnone).1 (not_before_nan hnone).2
    apply le_antisymm
    · exact not_lt.mp fun hlt => hab ⟨x, y, hx, hy, hlt⟩
    · exact not_lt.mp fun hlt => hba ⟨y, x, hy, hx, hlt⟩
  · intro h
    refine ⟨fun a _ b _ => before_asymm, fun a ha b hb d hd hab hbd had => ?_⟩
    obtain ⟨x, z, hx, hz, hlt⟩ := had
    rcases h with hnan | hequal
    · obtain ⟨y, hy⟩ := Option.ne_none_iff_exists'.mp (hnan b hb)
      have hxy : x ≤ y := not_lt.mp fun hlt => hab ⟨x, y, hx, hy, hlt⟩
      have hyz : y ≤ z := not_lt.mp fun hlt => hbd ⟨y, z, hy, hz, hlt⟩
      exact absurd (hlt.trans_le (hxy.trans hyz)) (lt_irrefl z)
    · exact absurd hlt (hequal a ha d hd x z hx hz ▸ lt_irrefl x)

variable [Zero W] [One W]

/-- **The precondition of the sort** holds exactly where no weight of the header is NaN or all the
other weights are equal. -/
theorem languages_strictWeak_iff (stod : Str → Option (Double W)) (header : Str) :
    StrictWeakOn LanguagePreference.before (languagePreferences stod header) ↔
      (∀ item ∈ languageItems header, quality stod item ≠ none) ∨
        ∀ a ∈ languageItems header, ∀ b ∈ languageItems header, ∀ x y,
          quality stod a = some x → quality stod b = some y → x = y := by
  rw [strictWeak_iff, forall_languagePreferences stod header (· ≠ none)]
  apply or_congr Iff.rfl
  have hlist : languagePreferences stod header =
      (languageItems header).map (languagePreference stod) := rfl
  rw [hlist]
  simp only [List.forall_mem_map, languagePreference_weight]

end

/-- `std::stod` on three texts. -/
def someNumbers (s : Str) : Option (Double Nat) :=
  if s = str "nan" then some none
  else if s = str "0" then some (some 0)
  else if s = str "1" then some (some 1)
  else none

/-- A client may send NaN between two other weights. -/
theorem nan_not_strictWeak :
    ¬ StrictWeakOn LanguagePreference.before
      (languagePreferences someNumbers (str "en, el;q=nan, fr;q=0")) := by
  rw [strictWeak_iff]
  have hprefs : languagePreferences someNumbers (str "en, el;q=nan, fr;q=0") =
      [⟨str "en", some 1⟩, ⟨str "el", none⟩, ⟨str "fr", some 0⟩] := by rfl
  rw [hprefs]
  rintro (hnan | hequal)
  · exact hnan ⟨str "el", none⟩ (by simp) rfl
  · exact absurd (hequal ⟨str "en", some 1⟩ (by simp) ⟨str "fr", some 0⟩ (by simp) 1 0 rfl rfl)
      (by decide)

end Wsrv.Locale
