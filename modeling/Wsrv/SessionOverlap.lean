import Wsrv.SessionStore

/-!
# Sessions that overlap

Several `Session` objects on one session id, opened and closed in any order: two
requests at a time, or the middlewares and the handler of one request.  Each
reads the whole dictionary when it is opened and writes the whole dictionary
when it is closed, and nothing locks or merges.

`Chains` is what becomes of the changes: the store holds those of a chain of
sessions, and a session that changed something leaves the chain it found when it
was opened, with itself at the end.  `stored_chain` says that the table holds
the dictionary of the chain, and `overlap_effects` whose changes are stored in
the end.
-/

namespace Wsrv

namespace SQLite3

open SessionData Refinement

/-! ## The run -/

/-- What one `Session` is opened with, the calls that change its data, and the response when it
is closed. -/
structure Visitor where
  req : HTTPServerRequest
  suffix : Str
  ops : List Session.Op
  resp : HTTPServerResponse

def Visitor.cookie (v : Visitor) : Str := v.req.getCookie (Session.cookieName v.suffix)

/-- The constructor of a visitor's session runs, or its destructor, at a second of the clock. -/
inductive Event
  | opens (i : Nat) (now : Int)
  | closes (i : Nat) (now : Int)

inductive Phase
  | before
  | during (s : Session)
  | after

/-- The clock is read anew by every event. -/
def World.tick (w : World) (now : Int) : World := { w with clock := now }

structure Shared where
  world : World
  phase : Nat → Phase

variable {host : Endian} {settings : SessionSettings} {v : Nat → Visitor} {sid : Str}

/-- One event.  The id is valid whenever a session is opened, and the lengths of what is written
fit into 32 bits. -/
inductive Overlaps (host : Endian) (settings : SessionSettings) (v : Nat → Visitor) (sid : Str) :
    Shared → Event → Shared → Prop
  | opens {st : Shared} {i : Nat} {now : Int} {s : Session} {w : World} :
      st.phase i = .before → (v i).cookie = sid → sid ≠ [] →
      ((st.world.tick now).live sid).isSome →
      Session.new (manager host settings) (v i).req (v i).suffix (st.world.tick now) =
        (.ok s, w) →
      Overlaps host settings v sid st (.opens i now) ⟨w, Function.update st.phase i (.during s)⟩
  | closes {st : Shared} {i : Nat} {now : Int} {s : Session} {resp : HTTPServerResponse}
      {w : World} :
      st.phase i = .during s → Fits (s.applyOps (v i).ops).data →
      (s.applyOps (v i).ops).destroy (manager host settings) (v i).resp
        (st.world.tick now) = (resp, w) →
      Overlaps host settings v sid st (.closes i now) ⟨w, Function.update st.phase i .after⟩

/-- The dictionary stored under the id: a row that is gone counts as an empty one. -/
def World.dictionary (host : Endian) (w : World) (id : Str) : Dictionary :=
  ((w.stored host id).map Prod.fst).getD ∅

/-! ## Whose changes are stored -/

/-- The visitors whose changes the store holds, in order, and those that each open session has
found. -/
structure Chains where
  current : List Nat
  found : Nat → List Nat

def Chains.step (v : Nat → Visitor) (c : Chains) : Event → Chains
  | .opens i _ => { c with found := Function.update c.found i c.current }
  | .closes i _ => if (v i).ops = [] then c else { c with current := c.found i ++ [i] }

@[simp] theorem Chains.step_opens_current (c : Chains) (i : Nat) (now : Int) :
    (c.step v (.opens i now)).current = c.current := rfl

@[simp] theorem Chains.step_opens_found (c : Chains) (i : Nat) (now : Int) :
    (c.step v (.opens i now)).found = Function.update c.found i c.current := rfl

@[simp] theorem Chains.step_closes_found (c : Chains) (i : Nat) (now : Int) :
    (c.step v (.closes i now)).found = c.found := by
  simp only [Chains.step]
  split <;> rfl

theorem Chains.step_closes_current (c : Chains) (i : Nat) (now : Int) :
    (c.step v (.closes i now)).current =
      if (v i).ops = [] then c.current else c.found i ++ [i] := by
  simp only [Chains.step]
  split <;> rfl

/-- The chain after a sequence of events. -/
def chain (v : Nat → Visitor) (evs : List Event) : List Nat :=
  (evs.foldl (Chains.step v) ⟨[], fun _ => []⟩).current

/-- A dictionary with the changes of some visitors, one after the other. -/
def changedBy (v : Nat → Visitor) (d : Dictionary) (is : List Nat) : Dictionary :=
  is.foldl (fun d i => Session.changed (v i).ops d) d

/-- The store and its open sessions, in terms of the chains. -/
structure Follows (host : Endian) (v : Nat → Visitor) (sid : Str) (d : Dictionary) (st : Shared)
    (c : Chains) : Prop where
  faults : NoFaults st.world
  fits : Fits (changedBy v d c.current)
  row : (∃ ts, st.world.sessions[sid]? = some ⟨serializeData host (changedBy v d c.current), ts⟩ ∧
      changedBy v d c.current ≠ ∅) ∨
    st.world.sessions[sid]? = none ∧ changedBy v d c.current = ∅
  current : c.current.Nodup ∧ ∀ j ∈ c.current, st.phase j = .after
  session : ∀ i s, st.phase i = .during s → s.id = sid ∧ s.sessionStarted = true ∧
    s.setCookie = false ∧ s.modified = false ∧ s.data = changedBy v d (c.found i) ∧ s.data ≠ ∅
  found : ∀ i s, st.phase i = .during s →
    (c.found i).Nodup ∧ ∀ j ∈ c.found i, st.phase j = .after

theorem changedBy_concat (d : Dictionary) (is : List Nat) (i : Nat) :
    changedBy v d (is ++ [i]) = Session.changed (v i).ops (changedBy v d is) := by
  simp [changedBy]

theorem changed_of_applyOps {s : Session} {d : Dictionary} {is : List Nat}
    (h : s.data = changedBy v d is) (i : Nat) :
    (s.applyOps (v i).ops).data = changedBy v d (is ++ [i]) := by
  rw [Session.applyOps_data, h, changedBy_concat]

/-- Opening: the session reads the dictionary of the current chain. -/
theorem Follows.opens {st : Shared} {c : Chains} {d : Dictionary} (h : Follows host v sid d st c)
    {i : Nat} {now : Int} {s : Session} {w : World} (hphase : st.phase i = .before)
    (hcookie : (v i).cookie = sid) (hsid : sid ≠ [])
    (hlive : ((st.world.tick now).live sid).isSome)
    (hnew : Session.new (manager host settings) (v i).req (v i).suffix
      (st.world.tick now) = (.ok s, w)) :
    Follows host v sid d ⟨w, Function.update st.phase i (.during s)⟩
      (c.step v (.opens i now)) := by
  have hf : NoFaults (st.world.tick now) := h.faults
  obtain ⟨s', w', hnew', hk, ho⟩ := new_spec host settings hf (v i).req (v i).suffix
  rw [hnew] at hnew'
  cases hnew'
  obtain ⟨row, hrow⟩ := Option.isSome_iff_exists.mp hlive
  change Opened host _ _ (v i).cookie s at ho
  rw [hcookie] at ho
  obtain ⟨hsess, hts⟩ := World.live_eq_some.mp hrow
  have hkept := hk.kept sid row hsess (by omega)
  have hD : row.data = serializeData host (changedBy v d c.current) ∧
      changedBy v d c.current ≠ ∅ := by
    rcases h.row with ⟨ts, hr, hne⟩ | ⟨hr, _⟩
    · rw [show st.world.sessions[sid]? = some row from hsess] at hr
      cases hr
      exact ⟨rfl, hne⟩
    · rw [show st.world.sessions[sid]? = some row from hsess] at hr
      cases hr
  have hs : s.id = sid ∧ s.sessionStarted = true ∧ s.setCookie = false ∧ s.modified = false ∧
      s.data = changedBy v d c.current := by
    cases ho with
    | resumed row' _ hrow' =>
      rw [hrow] at hrow'
      cases hrow'
      refine ⟨rfl, rfl, rfl, rfl, ?_⟩
      rw [hD.1]
      exact deserialize_serialize host host _ _ h.fits
    | started sid' hno _ _ => simp [hsid, hrow] at hno
    | noId hno => simp [hsid, hrow] at hno
  have hother : ∀ j, st.phase j = .after → j ≠ i := by
    rintro j hj rfl
    rw [hphase] at hj
    cases hj
  have hafter : ∀ j, st.phase j = .after → Function.update st.phase i (.during s) j = .after :=
    fun j hj => by rw [Function.update_of_ne (hother j hj), hj]
  have hcurrent : ∀ j ∈ c.current, Function.update st.phase i (.during s) j = .after :=
    fun j hj => hafter j (h.current.2 j hj)
  refine ⟨hk.faults, h.fits, Or.inl ⟨row.ts, ?_, hD.2⟩, ⟨h.current.1, hcurrent⟩, ?_, ?_⟩
  · rw [Chains.step_opens_current, ← hD.1]
    exact hkept
  · intro j t hj
    simp only at hj
    rw [Chains.step_opens_found]
    by_cases hji : j = i
    · subst hji
      rw [Function.update_self] at hj ⊢
      cases hj
      obtain ⟨h1, h2, h3, h4, h5⟩ := hs
      exact ⟨h1, h2, h3, h4, h5, h5 ▸ hD.2⟩
    · rw [Function.update_of_ne hji] at hj ⊢
      exact h.session j t hj
  · intro j t hj
    simp only at hj
    rw [Chains.step_opens_found]
    by_cases hji : j = i
    · rw [hji, Function.update_self]
      exact ⟨h.current.1, hcurrent⟩
    · rw [Function.update_of_ne hji] at hj ⊢
      obtain ⟨hnodup, hfound⟩ := h.found j t hj
      exact ⟨hnodup, fun k hk => hafter k (hfound k hk)⟩

/-- Closing: a session that changed something puts its own chain into the store. -/
theorem Follows.closes {st : Shared} {c : Chains} {d : Dictionary} (h : Follows host v sid d st c)
    {i : Nat} {now : Int} {s : Session} {resp : HTTPServerResponse} {w : World}
    (hphase : st.phase i = .during s) (hfits : Fits (s.applyOps (v i).ops).data)
    (hclose : (s.applyOps (v i).ops).destroy (manager host settings) (v i).resp
      (st.world.tick now) = (resp, w)) :
    Follows host v sid d ⟨w, Function.update st.phase i .after⟩ (c.step v (.closes i now)) := by
  obtain ⟨hid, hstarted, hset, hunmod, hdata, hne⟩ := h.session i s hphase
  have hf : NoFaults (st.world.tick now) := h.faults
  have hstarted' : (s.applyOps (v i).ops).sessionStarted = true := by simpa using hstarted
  obtain ⟨w', hclose', hclock, hjunk, hf', hsess⟩ :=
    destroy_spec host settings hf hstarted' (v i).resp
  rw [hclose] at hclose'
  cases hclose'
  have hafter : ∀ j, st.phase j = .after → Function.update st.phase i .after j = .after := by
    intro j hj
    by_cases hji : j = i
    · rw [hji, Function.update_self]
    · rw [Function.update_of_ne hji, hj]
  have hduring : ∀ j t, Function.update st.phase i .after j = .during t → st.phase j = .during t := by
    intro j t hj
    by_cases hji : j = i
    · rw [hji, Function.update_self] at hj
      cases hj
    · rwa [Function.update_of_ne hji] at hj
  have hsessions : ∀ j t, Function.update st.phase i .after j = .during t → t.id = sid ∧
      t.sessionStarted = true ∧ t.setCookie = false ∧ t.modified = false ∧
      t.data = changedBy v d (c.found j) ∧ t.data ≠ ∅ := fun j t hj => h.session j t (hduring j t hj)
  have hfound : ∀ j t, Function.update st.phase i .after j = .during t →
      (c.found j).Nodup ∧ ∀ k ∈ c.found j, Function.update st.phase i .after k = .after :=
    fun j t hj => ⟨(h.found j t (hduring j t hj)).1,
      fun k hk => hafter k ((h.found j t (hduring j t hj)).2 k hk)⟩
  by_cases hops : (v i).ops = []
  · have hsame : w.sessions = st.world.sessions := by
      rw [hsess, hops]
      simp [closed, Session.applyOps, hne, hunmod, World.tick]
    have hc : (c.step v (.closes i now)).current = c.current := by
      rw [Chains.step_closes_current, if_pos hops]
    refine ⟨hf', ?_, ?_, ?_, ?_, ?_⟩
    · rw [hc]
      exact h.fits
    · rw [hc, hsame]
      exact h.row
    · rw [hc]
      exact ⟨h.current.1, fun j hj => hafter j (h.current.2 j hj)⟩
    · simpa using hsessions
    · simpa using hfound
  · have hc : (c.step v (.closes i now)).current = c.found i ++ [i] := by
      rw [Chains.step_closes_current, if_neg hops]
    have hnew := changed_of_applyOps hdata i
    refine ⟨hf', ?_, ?_, ?_, ?_, ?_⟩
    · rw [hc, ← hnew]
      exact hfits
    · rw [hc, ← hnew, hsess]
      unfold closed
      by_cases hempty : (s.applyOps (v i).ops).data = ∅
      · right
        simp [hempty, hset, hid]
      · left
        refine ⟨now + settings.sessionIdLifetime, ?_, hempty⟩
        simp [hempty, Session.applyOps_modified, hops, hid, World.tick]
    · rw [hc]
      obtain ⟨hnodup, hclosed⟩ := h.found i s hphase
      refine ⟨?_, ?_⟩
      · refine List.nodup_append.mpr ⟨hnodup, by simp, ?_⟩
        intro j hj k hk
        rw [List.mem_singleton.mp hk]
        rintro rfl
        rw [hclosed j hj] at hphase
        cases hphase
      · intro j hj
        rcases List.mem_append.mp hj with hj | hj
        · exact hafter j (hclosed j hj)
        · rw [List.mem_singleton.mp hj]
          exact Function.update_self ..
    · simpa using hsessions
    · simpa using hfound

theorem overlaps_simulates (d : Dictionary) : Simulates (Overlaps host settings v sid)
    (fun c e c' => c' = c.step v e) (fun _ => True) (Follows host v sid d) := by
  intro st c e st' h _ hstep
  cases hstep with
  | opens hphase hcookie hsid hlive hnew => exact ⟨_, rfl, h.opens hphase hcookie hsid hlive hnew⟩
  | closes hphase hfits hclose => exact ⟨_, rfl, h.closes hphase hfits hclose⟩

/-- **The store holds the dictionary of the chain.** -/
theorem stored_chain {st st' : Shared} {evs : List Event} {d : Dictionary} {ts : Int}
    (hf : NoFaults st.world) (hphase : ∀ i, st.phase i = .before) (hd : Fits d) (hne : d ≠ ∅)
    (hrow : st.world.sessions[sid]? = some ⟨serializeData host d, ts⟩)
    (hrun : Run (Overlaps host settings v sid) st evs st') :
    (chain v evs).Nodup ∧ st'.world.dictionary host sid = changedBy v d (chain v evs) := by
  have hstart : Follows host v sid d st ⟨[], fun _ => []⟩ := by
    refine ⟨hf, hd, Or.inl ⟨ts, hrow, hne⟩, ⟨List.nodup_nil, by simp⟩, ?_, ?_⟩
    · intro i s hs
      rw [hphase] at hs
      cases hs
    · intro i s hs
      rw [hphase] at hs
      cases hs
  obtain ⟨c, hc, hfollows⟩ := (overlaps_simulates d).run hrun hstart (by simp)
  have hchain : c.current = chain v evs := by rw [hc.eq_foldl, chain]
  rw [← hchain]
  refine ⟨hfollows.current.1, ?_⟩
  unfold World.dictionary World.stored
  rcases hfollows.row with ⟨ts', hr, _⟩ | ⟨hr, hempty⟩
  · rw [hr]
    exact deserialize_serialize host host _ _ hfollows.fits
  · rw [hr, hempty]
    rfl

/-! ## Which changes are stored in the end -/

theorem changedBy_cons (d : Dictionary) (i : Nat) (is : List Nat) :
    changedBy v d (i :: is) = changedBy v (Session.changed (v i).ops d) is := rfl

/-- Visitors touch pairwise different keys. -/
def KeysDisjoint (v : Nat → Visitor) : Prop :=
  ∀ i j k, i ≠ j → Session.Touches (v i).ops k → ¬ Session.Touches (v j).ops k

/-- A visitor outside the chain: its keys are as they were. -/
theorem changedBy_outside (hdis : KeysDisjoint v) {i : Nat} {k : Str}
    (hk : Session.Touches (v i).ops k) {is : List Nat} (hi : i ∉ is) (d : Dictionary) :
    (changedBy v d is)[k]? = d[k]? := by
  induction is generalizing d with
  | nil => rfl
  | cons j is ih =>
    obtain ⟨hij, hi⟩ := not_or.mp (mt List.mem_cons.mpr hi)
    rw [changedBy_cons, ih hi, Session.changed_untouched (hdis i j k hij hk)]

/-- A visitor in the chain: its keys are as its own calls make them. -/
theorem changedBy_inside (hdis : KeysDisjoint v) {i : Nat} {k : Str}
    (hk : Session.Touches (v i).ops k) {is : List Nat} (hnodup : is.Nodup) (hi : i ∈ is)
    (d : Dictionary) : (changedBy v d is)[k]? = (Session.changed (v i).ops d)[k]? := by
  induction is generalizing d with
  | nil => cases hi
  | cons j is ih =>
    obtain ⟨hj, hnodup⟩ := List.nodup_cons.mp hnodup
    rw [changedBy_cons]
    by_cases hij : i = j
    · subst hij
      exact changedBy_outside hdis hk hj _
    · have hi : i ∈ is := (List.mem_cons.mp hi).resolve_left hij
      rw [ih hnodup hi]
      exact Session.changed_local (Session.changed_untouched (hdis i j k hij hk) d) _

/-- Every visitor of the events that closes with changes has been opened in them before, or is
one of `is`. -/
def OpenedSince (v : Nat → Visitor) : List Nat → List Event → Prop
  | _, [] => True
  | is, .opens i _ :: evs => OpenedSince v (i :: is) evs
  | is, .closes i _ :: evs => ((v i).ops ≠ [] → i ∈ is) ∧ OpenedSince v is evs

/-- Whoever is in the chain stays there, as long as only those close with changes who have found
it there. -/
theorem mem_chain_of_openedSince {i : Nat} {evs : List Event} (is : List Nat) {c : Chains}
    (hcur : i ∈ c.current) (hfound : ∀ j ∈ is, i ∈ c.found j) (h : OpenedSince v is evs) :
    i ∈ (evs.foldl (Chains.step v) c).current := by
  induction evs generalizing is c with
  | nil => exact hcur
  | cons e evs ih =>
    cases e with
    | opens j now =>
      refine ih (j :: is) hcur ?_ h
      intro k hk
      rw [Chains.step_opens_found]
      by_cases hkj : k = j
      · rw [hkj, Function.update_self]
        exact hcur
      · rw [Function.update_of_ne hkj]
        exact hfound k ((List.mem_cons.mp hk).resolve_left hkj)
    | closes j now =>
      obtain ⟨hj, h⟩ := h
      refine ih is ?_ ?_ h
      · rw [Chains.step_closes_current]
        split
        · exact hcur
        · rename_i hops
          exact List.mem_append_left _ (hfound j (hj hops))
      · rw [Chains.step_closes_found]
        exact hfound

/-- **Whose changes are stored in the end**: those of the visitors in the chain, and of nobody
else.  A visitor is in the chain if everyone who closes later with changes had opened after it
closed. -/
theorem overlap_effects (host : Endian) (settings : SessionSettings) (v : Nat → Visitor) (sid : Str)
    (hdis : KeysDisjoint v) {st st' : Shared} {evs : List Event} {d : Dictionary} {ts : Int}
    (hf : NoFaults st.world) (hphase : ∀ i, st.phase i = .before) (hd : Fits d) (hne : d ≠ ∅)
    (hrow : st.world.sessions[sid]? = some ⟨serializeData host d, ts⟩)
    (hrun : Run (Overlaps host settings v sid) st evs st') :
    (∀ i ∈ chain v evs, ∀ k, Session.Touches (v i).ops k →
        (st'.world.dictionary host sid)[k]? = (Session.changed (v i).ops d)[k]?) ∧
      (∀ i, i ∉ chain v evs → ∀ k, Session.Touches (v i).ops k →
        (st'.world.dictionary host sid)[k]? = d[k]?) ∧
      ∀ i now pre post, evs = pre ++ .closes i now :: post → (v i).ops ≠ [] →
        OpenedSince v [] post → i ∈ chain v evs := by
  obtain ⟨hnodup, hdict⟩ := stored_chain hf hphase hd hne hrow hrun
  rw [hdict]
  refine ⟨fun i hi k hk => changedBy_inside hdis hk hnodup hi d,
    fun i hi k hk => changedBy_outside hdis hk hi d, ?_⟩
  rintro i now pre post rfl hops hpost
  unfold chain
  rw [List.foldl_append, List.foldl_cons]
  refine mem_chain_of_openedSince [] ?_ (by simp) hpost
  rw [Chains.step_closes_current, if_neg hops]
  exact List.mem_append_right _ (List.mem_singleton_self i)

/-! ## Two visitors at a time -/

/-- The table with the shared session. -/
def sharedWorld (data : Dictionary) (now ts : Int) : World := tableWith (str "s1") data ts now

def seed : Dictionary := (∅ : Dictionary).insert (str "seed") (str "0")

/-- Visitor 0 adds `a`, visitor 1 adds `b`, and the others change nothing. -/
def twoVisitors (i : Nat) : Visitor :=
  { req := { HTTPServerRequest.init with
      COOKIE := (∅ : Dictionary).insert (str "WSX_SESSION_ID") (str "s1") }
    suffix := []
    ops := if i = 0 then [.add (str "a") (str "1")]
      else if i = 1 then [.add (str "b") (str "2")] else []
    resp := .init }

def openedSession : Session :=
  { id := str "s1", data := seed, sessionStarted := true, keyName := str "WSX_SESSION_ID" }

theorem twoVisitors_touches {i : Nat} {k : Str} (h : Session.Touches (twoVisitors i).ops k) :
    i = 0 ∧ k = str "a" ∨ i = 1 ∧ k = str "b" := by
  obtain ⟨op, hop, ht⟩ := h
  unfold twoVisitors at hop
  simp only at hop
  split at hop
  · rename_i hi
    rw [List.mem_singleton.mp hop] at ht
    exact Or.inl ⟨hi, ht.symm⟩
  · split at hop
    · rename_i hi
      rw [List.mem_singleton.mp hop] at ht
      exact Or.inr ⟨hi, ht.symm⟩
    · cases hop

theorem twoVisitors_keysDisjoint : KeysDisjoint twoVisitors := by
  intro i j k hij hi hj
  rcases twoVisitors_touches hi with ⟨hi, hk⟩ | ⟨hi, hk⟩ <;>
    rcases twoVisitors_touches hj with ⟨hj, hk'⟩ | ⟨hj, hk'⟩
  · exact hij (hi.trans hj.symm)
  · exact absurd (hk.symm.trans hk') (by decide)
  · exact absurd (hk.symm.trans hk') (by decide)
  · exact hij (hi.trans hj.symm)

/-- Both are open when visitor 0 closes. -/
def crossed : List Event := [.opens 0 100, .opens 1 101, .closes 0 102, .closes 1 103]

def startState : Shared := ⟨sharedWorld seed 100 1000, fun _ => .before⟩

/-- The table in the end has what visitor 1 has read and added. -/
def endState : Shared :=
  ⟨sharedWorld (seed.insert (str "b") (str "2")) 103 86503,
    Function.update (Function.update (Function.update (Function.update startState.phase 0
      (.during openedSession)) 1 (.during openedSession)) 0 .after) 1 .after⟩

theorem crossed_run :
    Run (Overlaps .little {} twoVisitors (str "s1")) startState crossed endState := by
  have open0 : Overlaps .little {} twoVisitors (str "s1") startState (.opens 0 100)
      ⟨sharedWorld seed 100 1000, Function.update startState.phase 0 (.during openedSession)⟩ :=
    .opens rfl rfl (by decide) (by decide) rfl
  have open1 : Overlaps .little {} twoVisitors (str "s1")
      ⟨sharedWorld seed 100 1000, Function.update startState.phase 0 (.during openedSession)⟩
      (.opens 1 101)
      ⟨sharedWorld seed 101 1000, Function.update (Function.update startState.phase 0
        (.during openedSession)) 1 (.during openedSession)⟩ :=
    .opens rfl rfl (by decide) (by decide) rfl
  have close0 : Overlaps .little {} twoVisitors (str "s1")
      ⟨sharedWorld seed 101 1000, Function.update (Function.update startState.phase 0
        (.during openedSession)) 1 (.during openedSession)⟩
      (.closes 0 102)
      ⟨sharedWorld (seed.insert (str "a") (str "1")) 102 86502, Function.update (Function.update
        (Function.update startState.phase 0 (.during openedSession)) 1 (.during openedSession)) 0
        .after⟩ :=
    .closes rfl ⟨by decide, by decide, by decide⟩ rfl
  have close1 : Overlaps .little {} twoVisitors (str "s1")
      ⟨sharedWorld (seed.insert (str "a") (str "1")) 102 86502, Function.update (Function.update
        (Function.update startState.phase 0 (.during openedSession)) 1 (.during openedSession)) 0
        .after⟩
      (.closes 1 103) endState :=
    .closes rfl ⟨by decide, by decide, by decide⟩ rfl
  exact .cons open0 (.cons open1 (.cons close0 (.cons close1 (.nil _))))

/-- **A lost update**: visitor 0 adds `a` and closes, and `a` is not in the table in the end. -/
theorem overlap_loses_update :
    KeysDisjoint twoVisitors ∧
      Run (Overlaps .little {} twoVisitors (str "s1")) startState crossed endState ∧
      Session.Touches (twoVisitors 0).ops (str "a") ∧
      (Session.changed (twoVisitors 0).ops seed)[str "a"]? = some (str "1") ∧
      (endState.world.dictionary .little (str "s1"))[str "a"]? = none :=
  ⟨twoVisitors_keysDisjoint, crossed_run, ⟨_, List.mem_singleton_self _, rfl⟩, by decide, by decide⟩

/-- Of the same run, the table has what visitor 1 added. -/
theorem crossed_effects :
    (endState.world.dictionary .little (str "s1"))[str "b"]? =
      (Session.changed (twoVisitors 1).ops seed)[str "b"]? :=
  (overlap_effects .little {} twoVisitors (str "s1") twoVisitors_keysDisjoint (fun _ => rfl)
    (fun _ => rfl) ⟨by decide, by decide, by decide⟩ (by decide) rfl crossed_run).1 1 (by decide)
    (str "b") ⟨_, List.mem_singleton_self _, rfl⟩

end SQLite3

end Wsrv
