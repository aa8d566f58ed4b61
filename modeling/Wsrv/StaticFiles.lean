import Wsrv.ResponseBody

/-!
# Files that are served

`encodeFile` guesses the type of a file from its name and the encoding from its
bytes.  The guess at the encoding compares a signed character with 139, which
none is, so a compressed file is never labelled by it (`labelled_iff`).

`is_path_safe` compares the components of two paths.  It takes a folder without
a canonical form for one without components, and it reads behind the end of a
target that is a proper part of the root; everywhere else the target is under
the root (`confined_iff`).
-/

namespace Wsrv.StaticFiles

open HTTPServerResponse
open ResponseBody (addHeader_ne)

/-! ## The label of a compressed file -/

/-- A file that can be read and begins with the magic bytes. -/
structure GzipFile (env : HostEnvironment) (path bytes : Str) : Prop where
  there : env.fileExists path = .ok true
  time : ∃ t, env.fileLastWriteTime path = .ok t
  content : env.readFileToString path = .ok bytes
  magic : bytes.take 2 = [0x1f, 0x8b]
  long : 2 < bytes.length

/-- The response says how the bytes of the file are encoded. -/
def Labelled (env : HostEnvironment) (r : HTTPServerResponse) (path : Str) : Prop :=
  ∃ r', r.encodeFile env path = .ok r' ∧
    r'.headers[str "Content-Encoding"]? = some (str "gzip")

/-- No character is 139. -/
theorem not_looksGzipped (bytes : Str) : looksGzipped bytes = false := by
  have hne (c : UInt8) : c.toInt8.toInt ≠ 0x8b :=
    forall_byte (P := fun c => c.toInt8.toInt ≠ 0x8b) (by decide +kernel) c
  simp [looksGzipped, hne]

/-- Of the headers of a compressed file none is the encoding. -/
theorem encodeFileData_encoding (r : HTTPServerResponse) (env : HostEnvironment) (bytes mime : Str)
    (modTime : Int) :
    (r.encodeFileData env bytes [] mime modTime).headers[str "Content-Encoding"]? =
      r.headers[str "Content-Encoding"]? := by
  have hencoding (r : HTTPServerResponse) : r.addEncoding bytes [] = r := by
    simp [addEncoding, not_looksGzipped]
  have htype (r : HTTPServerResponse) :
      (if mime ≠ [] then r.addHeader (str "Content-Type") mime else r).headers[str
        "Content-Encoding"]? = r.headers[str "Content-Encoding"]? := by
    split
    · exact addHeader_ne r _ (by decide)
    · rfl
  unfold encodeFileData
  split
  · rfl
  · show (addHeader _ (str "Etag") _).headers[str "Content-Encoding"]? = _
    rw [addHeader_ne _ _ (by decide), addHeader_ne _ _ (by decide), addHeader_ne _ _ (by decide),
      addHeader_ne _ _ (by decide), htype, hencoding, addHeader_ne _ _ (by decide)]
    rfl

/-- **A compressed file is labelled only by a label that was there before.** -/
theorem labelled_iff {env : HostEnvironment} {path bytes : Str} (h : GzipFile env path bytes)
    (r : HTTPServerResponse) :
    Labelled env r path ↔ r.headers[str "Content-Encoding"]? = some (str "gzip") := by
  obtain ⟨t, ht⟩ := h.time
  have hrun : r.encodeFile env path =
      .ok (r.encodeFileData env bytes [] (getFileMime env [] path) t) := by
    unfold HTTPServerResponse.encodeFile
    rw [h.there, ht, h.content]
    rfl
  rw [Labelled, hrun]
  constructor
  · rintro ⟨r', hr', hlabel⟩
    obtain rfl := Except.ok.inj hr'
    rwa [encodeFileData_encoding] at hlabel
  · intro hlabel
    exact ⟨_, rfl, (encodeFileData_encoding r env bytes _ t).trans hlabel⟩

/-- One compressed file, `a.svg.gz`. -/
def gzipEnvironment : HostEnvironment :=
  { ResponseBody.emptyEnvironment with
    fileExists := fun p => .ok (decide (p = str "a.svg.gz"))
    fileLastWriteTime := fun _ => .ok (-6437664000)
    readFileToString := fun _ => .ok [0x1f, 0x8b, 8]
    wellKnownMimeTypes := (∅ : Dictionary).insert (str ".svg") (str "image/svg+xml") }

theorem gzipEnvironment_file : GzipFile gzipEnvironment (str "a.svg.gz") [0x1f, 0x8b, 8] :=
  ⟨by decide +kernel, ⟨_, rfl⟩, rfl, rfl, by decide⟩

/-- A response that is labelled already keeps its label. -/
theorem label_kept :
    Labelled gzipEnvironment (HTTPServerResponse.init.addHeader (str "Content-Encoding") (str "gzip"))
      (str "a.svg.gz") :=
  (labelled_iff gzipEnvironment_file _).mpr Std.ExtTreeMap.getElem?_insert_self

/-- `HTTPServerResponse::file` gives none. -/
theorem label_missing :
    ∃ r, HTTPServerResponse.file gzipEnvironment (str "a.svg.gz") = .ok r ∧
      r.headers[str "Content-Type"]? = some (str "image/svg+xml") ∧
        r.headers[str "Content-Encoding"]? = none ∧
          ¬ Labelled gzipEnvironment .init (str "a.svg.gz") := by
  refine ⟨_, rfl, by decide +kernel, by decide +kernel, ?_⟩
  rintro ⟨r, hr, hlabel⟩
  obtain rfl := Except.ok.inj hr
  exact absurd hlabel (by decide +kernel)

/-! ## Paths under the root -/

/-- The comparison reads behind the end of the target exactly when the target is a proper part of
the root. -/
theorem mismatch_eq_none_iff (root target : List Str) :
    mismatch root target = none ↔ target <+: root ∧ target ≠ root := by
  induction root generalizing target with
  | nil =>
    cases target with
    | nil => simp [mismatch]
    | cons t target => simp [mismatch]
  | cons r root ih =>
    cases target with
    | nil => simp [mismatch]
    | cons t target =>
      rw [mismatch]
      by_cases hrt : r = t
      · subst hrt
        rw [if_pos rfl, ih]
        simp [List.cons_prefix_cons]
      · simp [hrt, Ne.symm hrt, List.cons_prefix_cons]

/-- It uses up the root exactly when the root is where the target begins. -/
theorem mismatch_nil_iff (root target : List Str) :
    (∃ rest, mismatch root target = some ([], rest)) ↔ root <+: target := by
  induction root generalizing target with
  | nil => simp [mismatch]
  | cons r root ih =>
    cases target with
    | nil => simp [mismatch]
    | cons t target =>
      rw [mismatch]
      by_cases hrt : r = t
      · subst hrt
        rw [if_pos rfl, ih, List.cons_prefix_cons]
        simp
      · simp [hrt, List.cons_prefix_cons]

/-- The check is defined, and what it lets through is under the canonical form of the folder. -/
structure Confined (env : HostEnvironment) (folder path : Str) : Prop where
  inside : isPathSafe env folder path ≠ .error .undefined
  under : isPathSafe env folder path = .ok true → ∃ root target,
    env.canonical folder = some root ∧
      env.weaklyCanonical (joinPath folder path) = some target ∧ root <+: target

/-- What `is_path_safe` decides for a target. -/
theorem isPathSafe_target {env : HostEnvironment} {folder path : Str} {target : List Str}
    (h : env.weaklyCanonical (joinPath folder path) = some target) :
    isPathSafe env folder path =
      match mismatch ((env.canonical folder).getD []) target with
      | none => .error .undefined
      | some (rootEnd, _) =>
        .ok (decide (rootEnd = []) && (env.isRegularFile target).getD false) := by
  unfold isPathSafe
  generalize env.weaklyCanonical (joinPath folder path) = found at h ⊢
  subst h
  rfl

/-- **Static files stay under the root**, unless the folder has no canonical form and the target is a
regular file, or the target is a proper part of the root. -/
theorem confined_iff (env : HostEnvironment) (folder path : Str) :
    Confined env folder path ↔
      ∀ target, env.weaklyCanonical (joinPath folder path) = some target →
        match env.canonical folder with
        | none => env.isRegularFile target ≠ some true
        | some root => ¬ (target <+: root ∧ target ≠ root) := by
  cases hweak : env.weaklyCanonical (joinPath folder path) with
  | none =>
    have hrefused : isPathSafe env folder path = .ok false := by rw [isPathSafe, hweak]
    refine ⟨fun _ _ h => (by cases h), fun _ => ⟨?_, ?_⟩⟩
    · simp [hrefused]
    · simp [hrefused]
  | some target =>
    have hsafe := isPathSafe_target hweak
    simp only [Option.some.injEq, forall_eq']
    cases hroot : env.canonical folder with
    | none =>
      have hregular : isPathSafe env folder path = .ok ((env.isRegularFile target).getD false) := by
        simp [hsafe, hroot, mismatch]
      constructor
      · rintro ⟨-, hunder⟩ hfile
        obtain ⟨root, _, hr, -⟩ := hunder (by simp [hregular, hfile])
        simp [hroot] at hr
      · intro hfile
        refine ⟨by simp [hregular], fun htrue => ?_⟩
        rw [hregular] at htrue
        cases hf : env.isRegularFile target with
        | none => simp [hf] at htrue
        | some b =>
          obtain rfl : b = true := by simpa [hf] using htrue
          exact absurd hf hfile
    | some root =>
      simp only [hroot, Option.getD_some] at hsafe
      simp only [← mismatch_eq_none_iff]
      constructor
      · rintro ⟨hinside, -⟩ hnone
        rw [hnone] at hsafe
        exact hinside hsafe
      · intro hdefined
        obtain ⟨⟨rootEnd, rest⟩, hmismatch⟩ := Option.ne_none_iff_exists'.mp hdefined
        simp only [hmismatch] at hsafe
        refine ⟨by simp [hsafe], fun htrue => ⟨root, target, hroot, hweak, ?_⟩⟩
        rw [hsafe, Except.ok.injEq, Bool.and_eq_true, decide_eq_true_eq] at htrue
        obtain rfl := htrue.1
        exact (mismatch_nil_iff root target).mp ⟨rest, hmismatch⟩

/-- A root at `/srv/www`, and a folder that is missing. -/
def rootEnvironment : HostEnvironment :=
  { ResponseBody.emptyEnvironment with
    weaklyCanonical := fun p =>
      if p = str "/srv/www/.." then some [str "/", str "srv"]
      else if p = str "/etc/passwd" then some [str "/", str "etc", str "passwd"]
      else none
    canonical := fun p => if p = str "/srv/www" then some [str "/", str "srv", str "www"] else none
    isRegularFile := fun target => some (decide (target = [str "/", str "etc", str "passwd"])) }

/-- The parent of the root is compared behind its end, and under a missing folder every file is
safe. -/
theorem root_left :
    ¬ Confined rootEnvironment (str "/srv/www") (str "..") ∧
      ¬ Confined rootEnvironment (str "missing") (str "/etc/passwd") := by
  constructor
  · rintro ⟨hinside, -⟩
    exact hinside (by decide +kernel)
  · rintro ⟨-, hunder⟩
    obtain ⟨root, _, hroot, -⟩ := hunder (by decide +kernel)
    exact absurd hroot (by simp [show rootEnvironment.canonical (str "missing") = none by decide +kernel])

end Wsrv.StaticFiles
