import Wsrv.ClientUrl

/-!
# The request line of the client

`URL::parse` decodes the path and the query, and `execute` writes what
`file()` gives, which does not encode them again.  A reader of the bytes finds
one request line and the host behind it (`Meant`) exactly when nothing that was
decoded has a space or a control byte (`execute_meant_iff`).
-/

namespace Wsrv.HTTPClientImpl

/-- Not a space and not a control byte. -/
def graphic (c : UInt8) : Bool := decide (' '.toUInt8 < c) && c != 127

def Graphic (s : Str) : Prop := ∀ c ∈ s, graphic c = true

instance (s : Str) : Decidable (Graphic s) := inferInstanceAs (Decidable (∀ c ∈ s, _))

/-- What stands between the target and the host. -/
def version : Str := str " HTTP/1.1\r\nHost: "

/-- What is written for a GET is one request line, the host, and what the caller asked for besides
the URL. -/
def Meant (written : Except Fault Str) (rest : Str) : Prop :=
  ∃ target host, written = .ok (str "GET " ++ target ++ version ++ host ++ str "\r\n" ++ rest) ∧
    Graphic target ∧ CR ∉ host ∧ LF ∉ host

/-! ## The only way to read a request -/

theorem version_eq : version = str " HTTP/1.1" ++ CR :: str "\nHost: " := by decide

/-- A target that is cut off at the version, and a host that is cut off at the line end. -/
theorem version_unique {a b target host : Str} (h : a ++ version ++ b = target ++ version ++ host)
    (htarget : Graphic target) (hcr : CR ∉ host) : target = a ∧ host = b := by
  rw [List.append_assoc, List.append_assoc] at h
  rcases List.append_eq_append_iff.mp h with ⟨z, hz, htail⟩ | ⟨z, hz, htail⟩
  · -- the target goes on behind `a`, with the space before the version
    cases z with
    | nil =>
      rw [List.append_nil] at hz
      exact ⟨hz, (List.append_cancel_left htail).symm⟩
    | cons c z =>
      rw [version_eq] at htail
      have hc : c = ' '.toUInt8 := (List.cons.inj htail).1.symm
      have hgraphic := htarget c (by simp [hz])
      rw [hc] at hgraphic
      exact absurd hgraphic (by decide)
  · -- the carriage return of the version would come later on one side
    cases z with
    | nil =>
      rw [List.append_nil] at hz
      exact ⟨hz.symm, List.append_cancel_left htail⟩
    | cons c z =>
      exfalso
      have hcount := congrArg (List.count CR) htail
      have hone : List.count CR version = 1 := by decide
      simp only [List.count_append, hone, List.count_eq_zero_of_not_mem hcr] at hcount
      have hindex := congrArg (List.idxOf CR) htail
      have hz0 : CR ∉ c :: z := List.count_eq_zero.mp (by omega)
      have hfront : CR ∉ str " HTTP/1.1" := by decide
      rw [version_eq, List.append_assoc, List.cons_append, List.idxOf_append_of_notMem hfront,
        List.idxOf_append_of_notMem hz0, List.append_assoc, List.cons_append,
        List.idxOf_append_of_notMem hfront] at hindex
      simp at hindex

/-! ## What a target is made of -/

theorem graphic_intercalate {c : UInt8} (hc : graphic c = true) (ps : List Str) :
    Graphic ([c].intercalate ps) ↔ ∀ p ∈ ps, Graphic p := by
  induction ps with
  | nil => simp [Graphic]
  | cons p ps ih =>
    cases ps with
    | nil => simp
    | cons q ps =>
      rw [List.intercalate_cons_cons, List.forall_mem_cons, ← ih]
      simp only [Graphic, List.forall_mem_append, List.forall_mem_singleton, hc, and_true]

theorem graphic_append (a b : Str) : Graphic (a ++ b) ↔ Graphic a ∧ Graphic b :=
  List.forall_mem_append

theorem graphic_pair (kv : Str × Str) :
    Graphic (URL.pair false kv) ↔ Graphic kv.1 ∧ Graphic kv.2 := by
  have hequal : graphic equal = true := by decide
  have hpair : URL.pair false kv = kv.1 ++ equal :: kv.2 := rfl
  rw [hpair, Graphic, List.forall_mem_append, List.forall_mem_cons, and_iff_right hequal]
  rfl

/-- Nothing that `URL` has decoded holds a space or a control byte. -/
def GraphicParts (u : URL) : Prop :=
  (∀ seg ∈ u.segments, Graphic seg) ∧ ∀ kv ∈ u.params.toList, Graphic kv.1 ∧ Graphic kv.2

instance (u : URL) : Decidable (GraphicParts u) := inferInstanceAs (Decidable (_ ∧ _))

theorem graphic_file {u : URL} (h : u.fragment = []) : Graphic u.file ↔ GraphicParts u := by
  have hpath : Graphic (u.makePathString false) ↔ ∀ seg ∈ u.segments, Graphic seg := by
    rw [URL.makePathString_join, graphic_intercalate (by decide), List.forall_mem_map]
    rfl
  have hquery : Graphic (u.makeQueryString false) ↔
      ∀ kv ∈ u.params.toList, Graphic kv.1 ∧ Graphic kv.2 := by
    rw [URL.makeQueryString_join, graphic_intercalate (by decide), List.forall_mem_map]
    exact forall₂_congr fun kv _ => graphic_pair kv
  unfold URL.file GraphicParts
  rw [if_pos h, ← hpath, ← hquery]
  split
  · rename_i hempty
    simp [hempty, Graphic]
  · have hmark : Graphic (str "?") := by decide +kernel
    rw [graphic_append, graphic_append, and_iff_left hmark]

/-! ## The request -/

/-- A GET, whatever its headers and body. -/
theorem execute_meant {req : HTTPClientRequest} (hget : req.method = .GET)
    (hfragment : req.url.fragment = []) :
    Meant (execute req) (requestEnd req) ↔ connects req.url = true ∧ GraphicParts req.url ∧
      CR ∉ req.url.host ∧ LF ∉ req.url.host := by
  have hstream : requestStream req = str "GET " ++ ('/'.toUInt8 :: req.url.file) ++ version ++
      req.url.host ++ str "\r\n" ++ requestEnd req := by
    simp [requestStream, HTTPClientRequest.methodString, hget, version, str]
  have hfile : Graphic ('/'.toUInt8 :: req.url.file) ↔ GraphicParts req.url := by
    rw [← graphic_file hfragment]
    simp only [Graphic, List.forall_mem_cons, and_iff_right_iff_imp]
    exact fun _ => by decide
  unfold execute Meant
  by_cases hconnects : connects req.url = true
  · rw [if_pos hconnects, hstream, ← hfile]
    constructor
    · rintro ⟨target, host, hwritten, htarget, hcr, hlf⟩
      have hbytes := Except.ok.inj hwritten
      simp only [List.append_assoc] at hbytes
      have hbytes := List.append_cancel_left hbytes
      simp only [← List.append_assoc] at hbytes
      have hbytes := List.append_cancel_right (List.append_cancel_right hbytes)
      obtain ⟨rfl, rfl⟩ := version_unique hbytes htarget hcr
      exact ⟨hconnects, htarget, hcr, hlf⟩
    · rintro ⟨-, hgraphic, hcr, hlf⟩
      exact ⟨_, _, rfl, hgraphic, hcr, hlf⟩
  · rw [if_neg hconnects]
    constructor
    · rintro ⟨target, host, hwritten, -⟩
      cases hwritten
    · exact fun h => absurd h.1 hconnects

/-- **The bytes of a GET are one request line and the host**, if and only if the protocol is known,
the host is one line, and nothing that was decoded holds a space or a control byte. -/
theorem execute_meant_iff (s : Str) (u : URL) (h : URL.parse s = .ok u) (req : HTTPClientRequest)
    (hurl : req.url = u) (hget : req.method = .GET) :
    Meant (execute req) (requestEnd req) ↔
      connects u = true ∧ GraphicParts u ∧ CR ∉ u.host ∧ LF ∉ u.host := by
  subst hurl
  exact execute_meant hget (URL.parse_fragment h)

/-- `http://a.org:80/b%2Fc?q=%C3%A9`. -/
def plainUrl : URL :=
  { protocol := str "http", host := str "a.org", port := 80
    segments := [str "b/c"], params := (∅ : Dictionary).insertIfNew (str "q") [0xc3, 0xa9] }

theorem plain_meant :
    URL.parse (str "http://a.org:80/b%2Fc?q=%C3%A9") = .ok plainUrl ∧
      (Meant (execute { url := plainUrl }) (requestEnd { url := plainUrl }) ↔
        connects plainUrl = true ∧ GraphicParts plainUrl ∧ CR ∉ plainUrl.host ∧
          LF ∉ plainUrl.host) := by
  have hparse : URL.parse (str "http://a.org:80/b%2Fc?q=%C3%A9") = .ok plainUrl := by
    decide +kernel
  exact ⟨hparse, execute_meant_iff _ _ hparse _ rfl rfl⟩

/-- An escaped line end ends the request line, and the rest of the path is a header. -/
theorem escaped_line_injects :
    URL.parse (str "http://a.org/b%0D%0AX:%201") =
        .ok { protocol := str "http", host := str "a.org", segments := [str "b\r\nX: 1"] } ∧
      ¬ Meant (execute
          { url := { protocol := str "http", host := str "a.org", segments := [str "b\r\nX: 1"] } })
        (requestEnd
          { url := { protocol := str "http", host := str "a.org"
                     segments := [str "b\r\nX: 1"] } }) := by
  refine ⟨by decide +kernel, fun h => ?_⟩
  have hparts := ((execute_meant rfl rfl).mp h).2.1
  revert hparts
  decide +kernel

end Wsrv.HTTPClientImpl
