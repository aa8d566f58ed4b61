import Wsrv.Util
import Wsrv.Lib.Lines

/-!
# The head of a response

A receiver cuts the bytes of a response at the first empty line, and the head
at its line ends.  It gets back the status line, a line for each header and the
content exactly when no name and no value that is left in the headers has a
line end inside (`recovered_iff`).  The operations that put headers into a
response copy their arguments as they are, so that this is a condition on the
arguments (`assembled_recovered_iff`).
-/

namespace Wsrv

open HTTPServerResponse

/-- `HTTPServerResponse::redirect`. -/
def HTTPServerResponse.redirect (r : HTTPServerResponse) (url : Str)
    (code : Status := .movedTemporarily) : HTTPServerResponse :=
  { r with status := code.code }.addHeader (str "Location") url

namespace ResponseHead

/-! ## The receiver -/

/-- No line end inside. -/
abbrev Unbroken (s : Str) : Prop := Lines.Unbroken CR LF s

/-- What a receiver reads: the lines before the first empty one, and what follows that. -/
def received (bytes : Str) : Option (List Str × Str) := Lines.readUntil CR LF [] bytes

/-- The status line without its end. -/
def statusText (status : Nat) : Str := (statusLine status).dropLast.dropLast

def headerLine (h : Str × Str) : Str := h.1 ++ str ": " ++ h.2

/-- The lines and the content of a response, recovered from its bytes. -/
def Recovered (rep : HTTPServerResponse) : Prop :=
  received (responseToBuffers rep false).flatten =
    some (statusText rep.status :: rep.headers.toList.map headerLine, rep.content)

theorem statusLine_eq (status : Nat) :
    statusLine status = statusText status ++ [CR, LF] ∧ Unbroken (statusText status) ∧
      statusText status ≠ [] := by
  unfold statusText statusLine
  split <;> decide +kernel

/-- A fixed text without line ends. -/
structure Label (label : Str) : Prop where
  ne_nil : label ≠ []
  plain : ∀ x ∈ label, x ≠ CR ∧ x ≠ LF

theorem Label.between {label : Str} (h : Label label) (l r : Str) :
    Unbroken (l ++ label ++ r) ↔ Unbroken l ∧ Unbroken r :=
  Lines.unbroken_between h.ne_nil h.plain l r

theorem unbroken_headerLine (h : Str × Str) :
    Unbroken (headerLine h) ↔ Unbroken h.1 ∧ Unbroken h.2 :=
  Label.between ⟨by decide, by decide +kernel⟩ h.1 h.2

theorem headerLine_ne_nil (h : Str × Str) : headerLine h ≠ [] := by simp [headerLine, str]

theorem responseToBuffers_flatten (rep : HTTPServerResponse) :
    (responseToBuffers rep false).flatten =
      Lines.join CR LF (statusText rep.status :: rep.headers.toList.map headerLine) ++ [] ++
        CR :: LF :: rep.content := by
  have hheaders (hs : List (Str × Str)) :
      (hs.flatMap fun h => [h.1, str ": ", h.2, [CR, LF]]).flatten =
        Lines.join CR LF (hs.map headerLine) := by
    induction hs with
    | nil => rfl
    | cons h hs ih => simp [ih, headerLine]
  simp [responseToBuffers, hheaders, (statusLine_eq rep.status).1]

/-- **A response is recovered exactly when no name and no value has a line end inside.** -/
theorem recovered_iff (rep : HTTPServerResponse) :
    Recovered rep ↔ ∀ h ∈ rep.headers.toList, Unbroken h.1 ∧ Unbroken h.2 := by
  obtain ⟨-, hstatus, hne⟩ := statusLine_eq rep.status
  unfold Recovered received
  rw [responseToBuffers_flatten, Lines.readUntil_iff (by decide) Lines.unbroken_nil,
    List.forall_mem_cons, List.forall_mem_map]
  simp only [hstatus, hne, ne_eq, not_false_eq_true, true_and, and_true, headerLine_ne_nil,
    unbroken_headerLine]

/-! ## HEAD -/

/-- The answer to `HEAD` has the bytes of the answer to `GET` but the content, and a receiver finds
the same lines and the end of the message. -/
structure MirrorsGet (rep : HTTPServerResponse) : Prop where
  bytes : (responseToBuffers rep true).flatten ++ rep.content = (responseToBuffers rep false).flatten
  parsed : ∀ lines, received (responseToBuffers rep false).flatten = some (lines, rep.content) →
    received (responseToBuffers rep true).flatten = some (lines, [])

/-- The empty line belongs to the branch of `GET`. -/
theorem head_flatten (rep : HTTPServerResponse) :
    (responseToBuffers rep false).flatten =
      (responseToBuffers rep true).flatten ++ CR :: LF :: rep.content := by
  simp [responseToBuffers]

theorem head_lines (rep : HTTPServerResponse) :
    (responseToBuffers rep true).flatten =
      Lines.join CR LF (statusText rep.status :: rep.headers.toList.map headerLine) := by
  have hget := responseToBuffers_flatten rep
  rw [head_flatten, List.append_nil] at hget
  exact List.append_cancel_right hget

/-- **No answer to `HEAD` mirrors the one to `GET`**: where the one to `GET` is recovered, a receiver
of the one to `HEAD` waits for its end. -/
theorem head_not_mirrored (rep : HTTPServerResponse) :
    ¬ MirrorsGet rep ∧
      (Recovered rep → received (responseToBuffers rep true).flatten = none) := by
  constructor
  · rintro ⟨hbytes, -⟩
    have hlength := congrArg List.length hbytes
    rw [head_flatten] at hlength
    simp only [List.length_append, List.length_cons] at hlength
    omega
  · intro hrecovered
    have hheaders := (recovered_iff rep).mp hrecovered
    obtain ⟨-, hstatus, hne⟩ := statusLine_eq rep.status
    rw [received, head_lines]
    apply Lines.readUntil_join (by decide)
    rw [List.forall_mem_cons, List.forall_mem_map]
    exact ⟨⟨hstatus, hne⟩, fun h hmem =>
      ⟨(unbroken_headerLine h).mpr (hheaders h hmem), headerLine_ne_nil h⟩⟩

/-- Not even the answer without headers and content. -/
theorem init_not_mirrored : ¬ MirrorsGet .init := by
  rintro ⟨hbytes, -⟩
  have hlength := congrArg List.length hbytes
  exact absurd hlength (by decide)

/-! ## The operations -/

/-- The calls that put a header into a response, with their arguments. -/
inductive Call
  | addHeader (key val : Str)
  | setCookie (name value : Str) (expires : Int) (path domain : Str) (secure httpOnly : Bool)
      (sameSite : Str)
  | setContentType (mime : Str)
  | redirect (url : Str) (code : Status)

namespace Call

def run (r : HTTPServerResponse) : Call → HTTPServerResponse
  | addHeader key val => r.addHeader key val
  | setCookie name value expires path domain secure httpOnly sameSite =>
    r.setCookie name value expires path domain secure httpOnly sameSite
  | setContentType mime => r.setContentType mime
  | redirect url code => r.redirect url code

/-- The name of the header. -/
def key : Call → Str
  | addHeader key _ => key
  | setCookie .. => str "Set-Cookie"
  | setContentType _ => str "Content-Type"
  | redirect .. => str "Location"

/-- Its value. -/
def value : Call → Str
  | addHeader _ val => val
  | setCookie name value expires path domain secure httpOnly sameSite =>
    cookieText name value expires path domain secure httpOnly sameSite
  | setContentType mime => mime
  | redirect url _ => url

/-- The arguments that are strings. -/
def strings : Call → List Str
  | addHeader key val => [key, val]
  | setCookie name value _ path domain _ _ sameSite => [name, value, path, domain, sameSite]
  | setContentType mime => [mime]
  | redirect url _ => [url]

end Call

theorem run_headers (r : HTTPServerResponse) (call : Call) :
    (call.run r).headers = r.headers.insert call.key call.value := by
  cases call <;> rfl

/-- Calls one after the other. -/
def assemble (r : HTTPServerResponse) (calls : List Call) : HTTPServerResponse :=
  calls.foldl Call.run r

theorem assemble_headers (r : HTTPServerResponse) (calls : List Call) :
    (assemble r calls).headers =
      (calls.map fun call => (call.key, call.value)).foldl (fun d kv => d.insert kv.1 kv.2)
        r.headers := by
  unfold assemble
  induction calls generalizing r with
  | nil => rfl
  | cons call calls ih => rw [List.foldl_cons, ih, run_headers]; rfl

/-- The last pair for a key decides it. -/
theorem foldl_insert_eq_some_iff (kvs : List (Str × Str)) (key v : Str) :
    (kvs.foldl (fun d kv => d.insert kv.1 kv.2) (∅ : Dictionary))[key]? = some v ↔
      ∃ before after, kvs = before ++ (key, v) :: after ∧ ∀ kv ∈ after, kv.1 ≠ key := by
  induction kvs using List.reverseRecOn with
  | nil => simp
  | append_singleton kvs kv ih =>
    rw [List.foldl_concat, Std.ExtTreeMap.getElem?_insert]
    by_cases hk : kv.1 = key
    · rw [if_pos (by rw [hk]; exact Std.ReflCmp.compare_self), Option.some.injEq]
      constructor
      · rintro rfl
        exact ⟨kvs, [], by rw [← hk], by simp⟩
      · rintro ⟨before, after, hsplit, hlast⟩
        rcases List.eq_nil_or_concat' after with rfl | ⟨after, last, rfl⟩
        · exact congrArg Prod.snd (List.singleton_inj.mp (List.append_inj' hsplit rfl).2)
        · rw [← List.cons_append, ← List.append_assoc] at hsplit
          obtain rfl : kv = last := by simpa using (List.append_inj' hsplit rfl).2
          exact absurd hk (hlast kv (by simp))
    · rw [if_neg (fun hc => hk (Std.LawfulEqCmp.eq_of_compare hc)), ih]
      constructor
      · rintro ⟨before, after, rfl, hlast⟩
        refine ⟨before, after ++ [kv], by simp, fun kv' hm => ?_⟩
        rcases List.mem_append.mp hm with hm | hm
        · exact hlast kv' hm
        · rwa [List.mem_singleton.mp hm]
      · rintro ⟨before, after, hsplit, hlast⟩
        rcases List.eq_nil_or_concat' after with rfl | ⟨after, last, rfl⟩
        · exact absurd (by simpa using congrArg Prod.fst (List.singleton_inj.mp
            (List.append_inj' hsplit rfl).2)) hk
        · rw [← List.cons_append, ← List.append_assoc] at hsplit
          exact ⟨before, after, (List.append_inj' hsplit rfl).1, fun kv' hm =>
            hlast kv' (by simp [hm])⟩
/-- The last call for a header decides it. -/
theorem mem_assemble_iff (content : Str) (status : Nat) (calls : List Call) (h : Str × Str) :
    h ∈ (assemble ⟨∅, content, status⟩ calls).headers.toList ↔
      ∃ before call after, calls = before ++ call :: after ∧ h = (call.key, call.value) ∧
        ∀ later ∈ after, later.key ≠ call.key := by
  rw [Std.ExtTreeMap.mem_toList_iff_getElem?_eq_some, assemble_headers,
    foldl_insert_eq_some_iff]
  constructor
  · rintro ⟨before, after, hsplit, hlast⟩
    obtain ⟨before', rest, rfl, -, hrest⟩ := List.map_eq_append_iff.mp hsplit
    obtain ⟨call, after', rfl, hcall, rfl⟩ := List.map_eq_cons_iff.mp hrest
    obtain rfl : h = (call.key, call.value) := hcall.symm
    exact ⟨before', call, after', rfl, rfl, fun later hl => hlast _ (List.mem_map_of_mem hl)⟩
  · rintro ⟨before, call, after, rfl, rfl, hlast⟩
    refine ⟨_, _, by rw [List.map_append, List.map_cons], ?_⟩
    rintro _ hkv
    obtain ⟨later, hl, rfl⟩ := List.mem_map.mp hkv
    exact hlast later hl

/-! ## The date of a cookie -/

theorem not_mem_toString (n : Nat) : LF ∉ toString n :=
  fun h => absurd (toString_isdigit n _ h) (by decide)

theorem not_mem_toStringInt (n : Int) : LF ∉ toStringInt n := by
  unfold toStringInt
  split
  · rw [List.mem_cons, not_or]
    exact ⟨by decide, not_mem_toString _⟩
  · exact not_mem_toString _

theorem not_mem_getD {names : List String} (h : ∀ s ∈ names, LF ∉ str s) (i : Nat) :
    LF ∉ str (names.getD i "") := by
  by_cases hi : i < names.length
  · rw [List.getD_eq_getElem _ _ hi]
    exact h _ (List.getElem_mem hi)
  · rw [List.getD_eq_default _ _ (not_lt.mp hi)]
    decide

theorem unbroken_gmtTimeString (t : Int) : Unbroken (gmtTimeString t) := by
  have hlit : LF ∉ str ", " ∧ LF ∉ str " " ∧ LF ∉ str ":" ∧ LF ∉ str " GMT" := by decide
  apply Lines.unbroken_of_not_mem
  simp only [gmtTimeString, twoDigits, List.mem_append, not_or]
  simp only [not_mem_toString, not_mem_toStringInt, hlit, not_false_eq_true, and_self, and_true]
  exact ⟨not_mem_getD (by decide) _, not_mem_getD (by decide) _⟩

/-! ## The arguments -/

/-- An attribute that may be missing. -/
theorem Label.attribute {label : Str} (h : Label label) (l v : Str) :
    Unbroken (l ++ if v ≠ [] then label ++ v else []) ↔ Unbroken l ∧ Unbroken v := by
  split
  · rw [← List.append_assoc, h.between]
  · rename_i hv
    rw [not_not.mp hv]
    simp [Lines.unbroken_nil]

/-- A flag adds a fixed text. -/
theorem Label.flag {label : Str} (h : Label label) (p : Prop) [Decidable p] (l : Str) :
    Unbroken (l ++ if p then label else []) ↔ Unbroken l := by
  split
  · have hend := h.between l []
    simpa [Lines.unbroken_nil] using hend
  · simp

theorem Label.expires {label : Str} (h : Label label) (expires : Int) (l : Str) :
    Unbroken (l ++ if expires > 0 then label ++ gmtTimeString expires else []) ↔
      Unbroken l := by
  split
  · rw [← List.append_assoc, h.between, and_iff_left (unbroken_gmtTimeString _)]
  · simp

theorem unbroken_cookieText (name value : Str) (expires : Int) (path domain : Str)
    (secure httpOnly : Bool) (sameSite : Str) :
    Unbroken (cookieText name value expires path domain secure httpOnly sameSite) ↔
      Unbroken name ∧ Unbroken value ∧ Unbroken path ∧ Unbroken domain ∧ Unbroken sameSite := by
  have hequal : Label (str "=") := ⟨by decide, by decide +kernel⟩
  have hexpires : Label (str "; Expires=") := ⟨by decide, by decide +kernel⟩
  have hpath : Label (str "; Path=") := ⟨by decide, by decide +kernel⟩
  have hdomain : Label (str "; Domain=") := ⟨by decide, by decide +kernel⟩
  have hsecure : Label (str "; Secure") := ⟨by decide, by decide +kernel⟩
  have hhttpOnly : Label (str "; HttpOnly") := ⟨by decide, by decide +kernel⟩
  have hsameSite : Label (str "; SameSite=") := ⟨by decide, by decide +kernel⟩
  unfold cookieText
  rw [hsameSite.attribute, hhttpOnly.flag, hsecure.flag, hdomain.attribute, hpath.attribute,
    hexpires.expires, hequal.between]
  simp only [and_assoc]

theorem unbroken_call (call : Call) :
    Unbroken call.key ∧ Unbroken call.value ↔ ∀ s ∈ call.strings, Unbroken s := by
  have hfixed : Unbroken (str "Set-Cookie") ∧ Unbroken (str "Content-Type") ∧
      Unbroken (str "Location") := by decide +kernel
  cases call <;>
    simp [Call.key, Call.value, Call.strings, hfixed, unbroken_cookieText]

/-- **No response splitting**, if and only if no string argument of the last call for a header
has a line end inside. -/
theorem assembled_recovered_iff (content : Str) (status : Nat) (calls : List Call) :
    Recovered (assemble ⟨∅, content, status⟩ calls) ↔
      ∀ before call after, calls = before ++ call :: after →
        (∀ later ∈ after, later.key ≠ call.key) → ∀ s ∈ call.strings, Unbroken s := by
  rw [recovered_iff]
  simp only [mem_assemble_iff]
  constructor
  · intro h before call after hcalls hlast
    exact (unbroken_call call).mp (h _ ⟨before, call, after, hcalls, rfl, hlast⟩)
  · rintro h _ ⟨before, call, after, hcalls, rfl, hlast⟩
    exact (unbroken_call call).mpr (h before call after hcalls hlast)

/-- A redirect whose target was decoded from `%0d%0aSet-Cookie:%20a=b` brings a header of its own. -/
theorem redirect_splits :
    ¬ Recovered (assemble .init [.redirect (str "/\r\nSet-Cookie: a=b") .movedTemporarily]) := by
  rw [recovered_iff]
  intro h
  exact absurd (h (str "Location", str "/\r\nSet-Cookie: a=b")
    (Std.ExtTreeMap.mem_toList_iff_getElem?_eq_some.mpr (by decide +kernel))).2 (by decide +kernel)

end ResponseHead

end Wsrv
