import Wsrv.Auth

/-!
# Logging out of a session

Any number of requests use one session id at the same time, and the statements
of their `Session` objects come in any order.  `Interleaved` is a step of one of
them, or of anything else that leaves the row alone or removes it.

A logout that has found a user leaves a row without one, and one that has found
none knows that there is none.  It stays so (`logout_lasts`) until somebody
writes a user back (`Revives`): a login that closes later, or a session that was
open before with the user in its dictionary, has it still and closes later with
changes.
-/

namespace Wsrv

namespace SQLite3

open SessionData Refinement

variable {host : Endian} {settings : SessionSettings} {sid : Str}

/-! ## What the calls do to the row, faults or not -/

/-- The row of the id is as it was, or gone. -/
def KeepsRow (sid : Str) (w w' : World) : Prop :=
  ∀ row : Row, w'.sessions[sid]? = some row → w.sessions[sid]? = some row

theorem KeepsRow.of_eq {w w' : World} (h : w'.sessions = w.sessions) : KeepsRow sid w w' := by
  intro row hrow
  rwa [h] at hrow

theorem KeepsRow.trans {w w' w'' : World} (h : KeepsRow sid w w') (h' : KeepsRow sid w' w'') :
    KeepsRow sid w w'' := fun row hrow => h row (h' row hrow)

/-- A statement fails, or has its effect. -/
theorem statement_cases {α : Type} (stepMsg : Str) (effect : World → α × World) (w : World) :
    ∃ w₁, w₁.sessions = w.sessions ∧ ((∃ e, statement stepMsg effect w = (.error e, w₁)) ∨
      statement stepMsg effect w = (.ok (effect w₁).1, (effect w₁).2)) := by
  refine ⟨{ w with faults := fun n => w.faults (n + 1) }, rfl, ?_⟩
  unfold statement
  cases w.faults 0 with
  | none => exact .inr rfl
  | some fault => exact .inl ⟨_, rfl⟩

theorem contains_sessions {id : Str} {w w' : World} {r : Except Exception Bool}
    (h : contains id w = (r, w')) : w'.sessions = w.sessions := by
  obtain ⟨w₁, hs, ⟨e, heq⟩ | heq⟩ := statement_cases (str "Error quering session data")
    (fun w' => ((w'.sessions[id]?).any fun row => decide (row.ts > w.clock), w')) w
  · cases heq.symm.trans h
    exact hs
  · cases heq.symm.trans h
    exact hs

theorem gc_keepsRow {w w' : World} {r : Except Exception Unit} (h : gc w = (r, w')) :
    KeepsRow sid w w' := by
  unfold gc at h
  simp only at h
  split at h
  · unfold deleteSessions statement at h
    split at h
    · cases h
      exact .of_eq rfl
    · cases h
      intro row hrow
      simp only [Std.ExtTreeMap.getElem?_filter, Option.pfilter_eq_some_iff] at hrow
      exact hrow.1
  · cases h
    exact .of_eq rfl

theorem readSessionData_cases {id : Str} {w w' : World} {r : Except Exception Str}
    (h : readSessionData id w = (r, w')) : w'.sessions = w.sessions ∧
      ∀ data, r = .ok data → ∃ ts, w.sessions[id]? = some ⟨data, ts⟩ := by
  obtain ⟨w₁, hs, ⟨e, heq⟩ | heq⟩ := statement_cases (str "Error reading session data")
    (fun w => (w.sessions[id]?, w)) w
  · rw [readSessionData, Action.bind_error heq] at h
    cases h
    exact ⟨hs, by simp⟩
  · rw [readSessionData, Action.bind_ok heq, hs] at h
    cases hrow : w.sessions[id]? with
    | none =>
      rw [hrow] at h
      cases h
      exact ⟨hs, fun data hd => by cases hd⟩
    | some row =>
      rw [hrow] at h
      cases h
      exact ⟨hs, fun data hd => ⟨row.ts, by cases hd; rfl⟩⟩

/-- What `read` gives is nothing, or what the row holds. -/
theorem read_cases {id : Str} {w w' : World} {b : Bool} {d : Dictionary}
    (h : read host id w = (.ok (b, d), w')) : KeepsRow id w w' ∧
      (d = ∅ ∨ ∃ row junk, w.sessions[id]? = some row ∧
        d = deserializeData host junk row.data ∅) := by
  unfold read at h
  split at h
  · rename_i hr
    cases h
    exact ⟨.of_eq (readSessionData_cases hr).1, .inl rfl⟩
  · rename_i data w₁ hr
    obtain ⟨hsess, hdata⟩ := readSessionData_cases hr
    obtain ⟨ts, hrow⟩ := hdata data rfl
    obtain ⟨_, w₂, hgc, h⟩ := Action.bind_inv h
    cases h
    exact ⟨(KeepsRow.of_eq hsess).trans (gc_keepsRow hgc), .inr ⟨_, _, hrow, rfl⟩⟩

theorem trySID_sessions {tries : Nat} {w w' : World} {r : Except Exception Str}
    (h : trySID tries w = (r, w')) : w'.sessions = w.sessions := by
  induction tries generalizing w with
  | zero =>
    cases h
    rfl
  | succ tries ih =>
    have hgen : (generateSID w).2.sessions = w.sessions := rfl
    unfold trySID at h
    simp only at h
    split at h
    · exact (ih h).trans hgen
    · rcases hc : contains (generateSID w).1 (generateSID w).2 with ⟨found, w₁⟩
      have hcont := contains_sessions hc
      cases found with
      | error e =>
        rw [Action.bind_error hc] at h
        cases h
        exact hcont.trans hgen
      | ok found =>
        rw [Action.bind_ok hc] at h
        cases found with
        | true => exact (ih h).trans (hcont.trans hgen)
        | false =>
          cases h
          exact hcont.trans hgen

theorem remove_sessions (id : Str) (w : World) :
    (w.faults 0 = none → (remove id w).2.sessions = w.sessions.erase id) ∧
      ((remove id w).2.sessions = w.sessions ∨ (remove id w).2.sessions = w.sessions.erase id) := by
  unfold remove caught removeSession statement
  cases w.faults 0 with
  | none => exact ⟨fun _ => rfl, .inr rfl⟩
  | some fault => exact ⟨(nomatch ·), .inl rfl⟩

theorem write_sessions (lifetime : Int) (id : Str) (d : Dictionary) (w : World) :
    ∃ ts, (w.faults 0 = none →
        (write host lifetime id d w).2.sessions = w.sessions.insert id ⟨serializeData host d, ts⟩) ∧
      ((write host lifetime id d w).2.sessions = w.sessions ∨
        (write host lifetime id d w).2.sessions =
          w.sessions.insert id ⟨serializeData host d, ts⟩) := by
  unfold write caught writeSessionData statement
  cases w.faults 0 with
  | none => exact ⟨_, fun _ => rfl, .inr rfl⟩
  | some fault => exact ⟨0, (nomatch ·), .inl rfl⟩

/-- The world after a session that has started is closed. -/
theorem destroy_world {s : Session} {resp resp' : HTTPServerResponse} {w w' : World}
    (hs : s.sessionStarted = true)
    (h : s.destroy (manager host settings) resp w = (resp', w')) :
    w' = if s.data = ∅ then if s.setCookie then w else (remove s.id w).2
      else if s.modified then (write host settings.sessionIdLifetime s.id s.data w).2 else w := by
  have hw : w' = (s.destroy (manager host settings) resp w).2 := by rw [h]
  rw [hw, Session.destroy, if_pos hs, Session.store]
  simp only [manager]
  split_ifs <;> rfl

/-- What closing a session may leave in its row. -/
theorem destroy_cases {s : Session} {resp resp' : HTTPServerResponse} {w w' : World}
    (hs : s.sessionStarted = true)
    (h : s.destroy (manager host settings) resp w = (resp', w')) {row : Row}
    (hrow : w'.sessions[s.id]? = some row) :
    w.sessions[s.id]? = some row ∨ s.modified = true ∧ row.data = serializeData host s.data := by
  rw [destroy_world hs h] at hrow
  split_ifs at hrow with hdata hset hmod
  · exact .inl hrow
  · rcases (remove_sessions s.id w).2 with hsess | hsess <;> rw [hsess] at hrow
    · exact .inl hrow
    · simp at hrow
  · obtain ⟨ts, -, hsess | hsess⟩ := write_sessions settings.sessionIdLifetime s.id s.data w <;>
      rw [hsess] at hrow
    · exact .inl hrow
    · rw [Std.ExtTreeMap.getElem?_insert_self] at hrow
      obtain rfl := Option.some.inj hrow
      exact .inr ⟨hmod, rfl⟩
  · exact .inl hrow

/-- What it leaves when something has been changed and its statement does not fail. -/
theorem destroy_modified {s : Session} {resp resp' : HTTPServerResponse} {w w' : World}
    (hs : s.sessionStarted = true) (hset : s.setCookie = false) (hmod : s.modified = true)
    (hfault : w.faults 0 = none)
    (h : s.destroy (manager host settings) resp w = (resp', w')) {row : Row}
    (hrow : w'.sessions[s.id]? = some row) : row.data = serializeData host s.data := by
  rw [destroy_world hs h, hset, hmod] at hrow
  simp only [Bool.false_eq_true, if_false, if_true] at hrow
  split_ifs at hrow with hdata
  · rw [(remove_sessions s.id w).1 hfault] at hrow
    simp at hrow
  · obtain ⟨ts, hsess, -⟩ := write_sessions settings.sessionIdLifetime s.id s.data w
    rw [hsess hfault, Std.ExtTreeMap.getElem?_insert_self] at hrow
    obtain rfl := Option.some.inj hrow
    rfl

/-! ## The run -/

/-- What one request does to its session: the calls may depend on what it has read. -/
structure Visit where
  suffix : Str
  ops : Session → List Session.Op
  resp : HTTPServerResponse

/-- How far a request has got with its session. -/
inductive Stage
  | before
  | checked
  | during (s : Session)
  | after

structure Traffic where
  world : World
  stage : Nat → Stage

/-- A statement of the constructor of a request's session, the destructor of the session it has
opened, or something else. -/
inductive Act
  | check (i : Nat)
  | read (i : Nat)
  | start (i : Nat)
  | close (i : Nat) (s : Session)
  | other

/-- One act.  A session with the id is opened by `contains` and `read`, or by `uniqueSID` when the
id happens to be drawn again.  Anything else (time, faults to come, other sessions, the garbage
collector) may do whatever keeps the row or removes it.  The lengths of what is written fit into
32 bits. -/
inductive Interleaved (host : Endian) (settings : SessionSettings) (v : Nat → Visit) (sid : Str) :
    Traffic → Act → Traffic → Prop
  | check {st : Traffic} {i : Nat} {w : World} :
      st.stage i = .before → contains sid st.world = (.ok true, w) →
      Interleaved host settings v sid st (.check i) ⟨w, Function.update st.stage i .checked⟩
  | read {st : Traffic} {i : Nat} {b : Bool} {d : Dictionary} {w : World} :
      st.stage i = .checked → SQLite3.read host sid st.world = (.ok (b, d), w) →
      Interleaved host settings v sid st (.read i) ⟨w, Function.update st.stage i (.during
        { id := sid, data := d, sessionStarted := true,
          keyName := Session.cookieName (v i).suffix })⟩
  | start {st : Traffic} {i : Nat} {w : World} :
      st.stage i = .before → uniqueSID st.world = (.ok sid, w) →
      Interleaved host settings v sid st (.start i) ⟨w, Function.update st.stage i (.during
        { id := sid, sessionStarted := true, setCookie := true,
          keyName := Session.cookieName (v i).suffix })⟩
  | close {st : Traffic} {i : Nat} {s : Session} {resp : HTTPServerResponse} {w : World} :
      st.stage i = .during s → Fits (s.applyOps ((v i).ops s)).data →
      (s.applyOps ((v i).ops s)).destroy (manager host settings) (v i).resp st.world = (resp, w) →
      Interleaved host settings v sid st (.close i s) ⟨w, Function.update st.stage i .after⟩
  | other {st : Traffic} {w : World} : KeepsRow sid st.world w →
      Interleaved host settings v sid st .other ⟨w, st.stage⟩

variable {v : Nat → Visit}

/-- What is known of every session that is open. -/
def Regular (sid : Str) (s : Session) : Prop :=
  s.id = sid ∧ s.sessionStarted = true ∧ s.modified = false ∧ (s.setCookie = true → s.data = ∅)

def AllRegular (sid : Str) (st : Traffic) : Prop :=
  ∀ i s, st.stage i = .during s → Regular sid s

theorem update_during {stage : Nat → Stage} {i j : Nat} {x : Stage} {s : Session}
    (h : Function.update stage i x j = .during s) : x = .during s ∧ j = i ∨ stage j = .during s := by
  by_cases hji : j = i
  · subst hji
    rw [Function.update_self] at h
    exact .inl ⟨h, rfl⟩
  · rw [Function.update_of_ne hji] at h
    exact .inr h

theorem regular_step {st st' : Traffic} {a : Act} (h : AllRegular sid st)
    (hstep : Interleaved host settings v sid st a st') : AllRegular sid st' := by
  intro j s hj
  cases hstep with
  | check _ _ =>
    rcases update_during hj with ⟨hx, -⟩ | hj
    · cases hx
    · exact h j s hj
  | read _ _ =>
    rcases update_during hj with ⟨hx, -⟩ | hj
    · cases hx
      exact ⟨rfl, rfl, rfl, fun hset => by cases hset⟩
    · exact h j s hj
  | start _ _ =>
    rcases update_during hj with ⟨hx, -⟩ | hj
    · cases hx
      exact ⟨rfl, rfl, rfl, fun _ => rfl⟩
    · exact h j s hj
  | close _ _ _ =>
    rcases update_during hj with ⟨hx, -⟩ | hj
    · cases hx
    · exact h j s hj
  | other _ => exact h j s hj

/-! ## After the logout -/

/-- The calls of `SessionLogoutController`. -/
def logoutOps (s : Session) : List Session.Op :=
  if s.get USER_KEY ≠ [] then [.remove USER_KEY] else []

/-- The row, if there is one, holds no user. -/
def NoUser (host : Endian) (sid : Str) (w : World) : Prop :=
  ∀ row : Row, w.sessions[sid]? = some row →
    ∃ d, Fits d ∧ row.data = serializeData host d ∧ d.getD USER_KEY [] = []

theorem NoUser.mono {w w' : World} (h : NoUser host sid w) (hk : KeepsRow sid w w') :
    NoUser host sid w' := fun row hrow => h row (hk row hrow)

/-- No call puts a user in. -/
def AddsNoUser (ops : List Session.Op) : Prop := ∀ val, .add USER_KEY val ∉ ops

theorem applyOps_no_user {ops : List Session.Op} (h : AddsNoUser ops) {s : Session}
    (hs : s.get USER_KEY = []) : (s.applyOps ops).get USER_KEY = [] := by
  induction ops generalizing s with
  | nil => exact hs
  | cons op ops ih =>
    refine ih (fun val hm => h val (List.mem_cons_of_mem _ hm)) ?_
    cases op with
    | add key val =>
      have hne : key ≠ USER_KEY := by
        rintro rfl
        exact h val List.mem_cons_self
      simp only [Session.Op.apply, Session.add, Session.get] at hs ⊢
      rw [Std.ExtTreeMap.getD_insertIfNew, if_neg (by simp [hne])]
      exact hs
    | remove key =>
      simp only [Session.Op.apply, Session.remove, Session.get] at hs ⊢
      rw [Std.ExtTreeMap.getD_erase]
      split_ifs
      · rfl
      · exact hs
    | clear => simp [Session.Op.apply, Session.clear, Session.get]

/-- Closing the session writes a user back: the dictionary is written and holds one, which the
calls have put in (a login), or which the session has had open since the state `st₁`. -/
def Revives (v : Nat → Visit) (st₁ : Traffic) (i : Nat) (s : Session) : Prop :=
  (v i).ops s ≠ [] ∧ (s.applyOps ((v i).ops s)).get USER_KEY ≠ [] ∧
    (¬ AddsNoUser ((v i).ops s) ∨ st₁.stage i = .during s ∧ s.get USER_KEY ≠ [])

/-- The acts that write no user back, seen from the state `st₁`. -/
def Harmless (v : Nat → Visit) (st₁ : Traffic) : Act → Prop
  | .close i s => ¬ Revives v st₁ i s
  | _ => True

/-- There is no user in the row, and only sessions that were open in `st₁` may hold one. -/
structure LoggedOut (host : Endian) (sid : Str) (st₁ st : Traffic) : Prop where
  row : NoUser host sid st.world
  regular : AllRegular sid st
  session : ∀ i s, st.stage i = .during s → s.get USER_KEY = [] ∨ st₁.stage i = .during s

/-- **Nothing harmless puts a user back.** -/
theorem LoggedOut.step {st₁ st st' : Traffic} {a : Act} (h : LoggedOut host sid st₁ st)
    (ha : Harmless v st₁ a) (hstep : Interleaved host settings v sid st a st') :
    LoggedOut host sid st₁ st' := by
  have hregular := regular_step h.regular hstep
  cases hstep with
  | check hstage hcont =>
    refine ⟨h.row.mono (.of_eq (contains_sessions hcont)), hregular, fun j s hj => ?_⟩
    rcases update_during hj with ⟨hx, -⟩ | hj
    · cases hx
    · exact h.session j s hj
  | read hstage hread =>
    obtain ⟨hk, hd⟩ := read_cases hread
    refine ⟨h.row.mono hk, hregular, fun j s hj => ?_⟩
    rcases update_during hj with ⟨hx, -⟩ | hj
    · cases hx
      left
      rcases hd with rfl | ⟨row, junk, hrow, rfl⟩
      · simp [Session.get]
      · obtain ⟨d, hfits, hdata, huser⟩ := h.row row hrow
        rw [hdata, deserialize_serialize host host junk d hfits]
        exact huser
    · exact h.session j s hj
  | start hstage hsid =>
    refine ⟨h.row.mono (.of_eq (trySID_sessions hsid)), hregular, fun j s hj => ?_⟩
    rcases update_during hj with ⟨hx, -⟩ | hj
    · cases hx
      exact .inl (by simp [Session.get])
    · exact h.session j s hj
  | @close i s resp w hstage hfits hdestroy =>
    obtain ⟨hid, hstarted, hmod, -⟩ := h.regular i s hstage
    refine ⟨fun row hrow => ?_, hregular, fun j s hj => ?_⟩
    · have hrow' : w.sessions[(s.applyOps ((v i).ops s)).id]? = some row := by
        rw [Session.applyOps_id, hid]
        exact hrow
      rcases destroy_cases (by rw [Session.applyOps_sessionStarted, hstarted]) hdestroy hrow' with
        hold | ⟨hmod', hdata⟩
      · rw [Session.applyOps_id, hid] at hold
        exact h.row row hold
      · have hops : (v i).ops s ≠ [] := by
          intro hnil
          rw [hnil, Session.applyOps_modified, hmod] at hmod'
          cases hmod'
        refine ⟨_, hfits, hdata, ?_⟩
        -- a dictionary that is written with a user has got it by a login or had it all along
        by_contra huser
        refine ha ⟨hops, huser, ?_⟩
        by_contra hcon
        obtain ⟨hadds, hstale⟩ := not_or.mp hcon
        rw [not_not] at hadds
        refine huser (applyOps_no_user hadds ?_)
        by_contra hs
        exact hstale ⟨(h.session i s hstage).resolve_left hs, hs⟩
    · rcases update_during hj with ⟨hx, -⟩ | hj
      · cases hx
      · exact h.session j s hj
  | other hk => exact ⟨h.row.mono hk, hregular, h.session⟩

/-- A logout that has found a user leaves none. -/
theorem loggedOut_of_logout {st₁ st₂ : Traffic} {l : Nat} {s : Session}
    (hregular : AllRegular sid st₁) (hlogout : (v l).ops = logoutOps)
    (hopen : st₁.stage l = .during s) (hfound : s.get USER_KEY ≠ [])
    (hfault : st₁.world.faults 0 = none)
    (hclose : Interleaved host settings v sid st₁ (.close l s) st₂) :
    LoggedOut host sid st₁ st₂ := by
  have hregular₂ := regular_step hregular hclose
  obtain ⟨hid, hstarted, hmod, hset⟩ := hregular l s hopen
  cases hclose with
  | @close _ _ resp w hstage hfits hdestroy =>
    have hops : (v l).ops s = [.remove USER_KEY] := by rw [hlogout, logoutOps, if_pos hfound]
    have hcookie : s.setCookie = false := by
      refine Bool.eq_false_iff.mpr fun h => hfound ?_
      simp [Session.get, hset h]
    rw [hops] at hfits hdestroy
    refine ⟨fun row hrow => ?_, hregular₂, fun j t hj => ?_⟩
    · have hrow' : w.sessions[(s.applyOps [.remove USER_KEY]).id]? = some row := by
        rw [Session.applyOps_id, hid]
        exact hrow
      refine ⟨_, hfits, destroy_modified ?_ ?_ ?_ hfault hdestroy hrow', ?_⟩
      · rw [Session.applyOps_sessionStarted, hstarted]
      · rw [Session.applyOps_setCookie, hcookie]
      · rw [Session.applyOps_modified]
        simp
      · simp [Session.applyOps, Session.Op.apply, Session.remove]
    · rcases update_during hj with ⟨hx, -⟩ | hj
      · cases hx
      · exact .inr hj

/-- Every row of the id has been written by a session. -/
def Written (host : Endian) (sid : Str) (w : World) : Prop :=
  ∀ row : Row, w.sessions[sid]? = some row → ∃ d, Fits d ∧ row.data = serializeData host d

theorem Written.mono {w w' : World} (h : Written host sid w) (hk : KeepsRow sid w w') :
    Written host sid w' := fun row hrow => h row (hk row hrow)

theorem written_step {st st' : Traffic} {a : Act}
    (h : AllRegular sid st ∧ Written host sid st.world)
    (hstep : Interleaved host settings v sid st a st') :
    AllRegular sid st' ∧ Written host sid st'.world := by
  refine ⟨regular_step h.1 hstep, ?_⟩
  cases hstep with
  | check _ hcont => exact h.2.mono (.of_eq (contains_sessions hcont))
  | read _ hread => exact h.2.mono (read_cases hread).1
  | start _ hsid => exact h.2.mono (.of_eq (trySID_sessions hsid))
  | @close i s resp w hstage hfits hdestroy =>
    obtain ⟨hid, hstarted, -, -⟩ := h.1 i s hstage
    intro row hrow
    have hrow' : w.sessions[(s.applyOps ((v i).ops s)).id]? = some row := by
      rw [Session.applyOps_id, hid]
      exact hrow
    rcases destroy_cases (by rw [Session.applyOps_sessionStarted, hstarted]) hdestroy hrow' with
      hold | ⟨-, hdata⟩
    · rw [Session.applyOps_id, hid] at hold
      exact h.2 row hold
    · exact ⟨_, hfits, hdata⟩
  | other hk => exact h.2.mono hk

/-- A session that reads the row without an error sees whether there is a user in it. -/
theorem noUser_of_read {w w' : World} {b : Bool} {d : Dictionary} (hwritten : Written host sid w)
    (hfault : w.faults 0 = none) (hread : read host sid w = (.ok (b, d), w'))
    (huser : d.getD USER_KEY [] = []) : NoUser host sid w' := by
  refine NoUser.mono (fun row hrow => ?_) (read_cases hread).1
  obtain ⟨d', hfits, hdata⟩ := hwritten row hrow
  refine ⟨d', hfits, hdata, ?_⟩
  obtain rfl : d = d' := by
    unfold read readSessionData at hread
    have hrow' : ({ w with faults := fun n => w.faults (n + 1) } : World).sessions[sid]? =
        some row := hrow
    have hstatement : statement (str "Error reading session data")
        (fun w => (w.sessions[sid]?, w)) w =
          (.ok (some row), { w with faults := fun n => w.faults (n + 1) }) := by
      unfold statement
      rw [hfault]
      simp only [hrow']
    rw [Action.bind_ok hstatement] at hread
    obtain ⟨_, w₂, -, hread⟩ := Action.bind_inv hread
    cases hread
    rw [hdata, deserialize_serialize host host _ d' hfits]
  exact huser

/-- A logout that has found none knows that there is none in the row it has read. -/
theorem loggedOut_of_read {st₁ st₂ : Traffic} {l : Nat} {s : Session}
    (hregular : AllRegular sid st₁) (hwritten : Written host sid st₁.world)
    (hfault : st₁.world.faults 0 = none)
    (hread : Interleaved host settings v sid st₁ (.read l) st₂)
    (hopen : st₂.stage l = .during s) (hnone : s.get USER_KEY = []) :
    LoggedOut host sid st₂ st₂ := by
  refine ⟨?_, regular_step hregular hread, fun i t ht => .inr ht⟩
  cases hread with
  | read hstage hread =>
    simp only [Function.update_self] at hopen
    cases hopen
    exact noUser_of_read hwritten hfault hread hnone

theorem LoggedOut.run {st₁ st st' : Traffic} {as : List Act} (h : LoggedOut host sid st₁ st)
    (hrun : Run (Interleaved host settings v sid) st as st') (has : ∀ a ∈ as, Harmless v st₁ a) :
    LoggedOut host sid st₁ st' := by
  induction hrun with
  | nil => exact h
  | cons hstep _ ih =>
    exact ih (h.step (has _ List.mem_cons_self) hstep) fun a ha => has a (List.mem_cons_of_mem _ ha)

/-- A request has opened its session, and closed it perhaps. -/
def WasOpened (i : Nat) (s : Session) (st : Traffic) : Prop :=
  st.stage i = .during s ∨ st.stage i = .after

/-- A session that has been opened is not opened again. -/
theorem wasOpened_step {i : Nat} {s : Session} {st st' : Traffic} {a : Act}
    (h : WasOpened i s st) (hstep : Interleaved host settings v sid st a st') :
    WasOpened i s st' ∧ a ≠ .read i ∧ a ≠ .start i := by
  have hother {j : Nat} (hj : st.stage j ≠ .after) (hj' : ∀ t, st.stage j ≠ .during t) (x : Stage)
      (w : World) : WasOpened i s ⟨w, Function.update st.stage j x⟩ ∧ i ≠ j := by
    have hij : i ≠ j := by
      rintro rfl
      rcases h with hs | hs
      · exact hj' s hs
      · exact hj hs
    unfold WasOpened
    simp only [Function.update_of_ne hij]
    exact ⟨h, hij⟩
  cases hstep with
  | @check j w hstage _ =>
    have hj : st.stage j ≠ .after ∧ ∀ t, st.stage j ≠ .during t := by simp [hstage]
    exact ⟨(hother hj.1 hj.2 _ w).1, by simp, by simp⟩
  | @read j b d w hstage _ =>
    have hj : st.stage j ≠ .after ∧ ∀ t, st.stage j ≠ .during t := by simp [hstage]
    obtain ⟨hs, hij⟩ := hother hj.1 hj.2 _ w
    exact ⟨hs, by simp [hij.symm], by simp⟩
  | @start j w hstage _ =>
    have hj : st.stage j ≠ .after ∧ ∀ t, st.stage j ≠ .during t := by simp [hstage]
    obtain ⟨hs, hij⟩ := hother hj.1 hj.2 _ w
    exact ⟨hs, by simp, by simp [hij.symm]⟩
  | @close j t resp w hstage _ _ =>
    refine ⟨?_, by simp, by simp⟩
    by_cases hij : i = j
    · exact .inr (by rw [hij]; exact Function.update_self ..)
    · unfold WasOpened
      simp only [Function.update_of_ne hij]
      exact h
  | other _ => exact ⟨h, by simp, by simp⟩

theorem wasOpened_run {i : Nat} {s : Session} {st st' : Traffic} {as : List Act}
    (h : WasOpened i s st) (hrun : Run (Interleaved host settings v sid) st as st') :
    WasOpened i s st' ∧ .read i ∉ as ∧ .start i ∉ as := by
  induction hrun with
  | nil => exact ⟨h, by simp, by simp⟩
  | cons hstep _ ih =>
    obtain ⟨h', hread, hstart⟩ := wasOpened_step h hstep
    obtain ⟨hend, h1, h2⟩ := ih h'
    exact ⟨hend, by simp [h1, hread.symm], by simp [h2, hstart.symm]⟩

/-! ## The requests behind the acts -/

/-- The constructor, on a request that gets the id: it resumes the session with a check and a read,
or draws the id again. -/
theorem new_interleaved {st : Traffic} {i : Nat} {req : HTTPServerRequest} {s : Session}
    {w : World} (hbefore : st.stage i = .before)
    (hnew : Session.new (manager host settings) req (v i).suffix st.world = (.ok s, w))
    (hstarted : s.sessionStarted = true) (hid : s.id = sid) :
    ∃ acts, Run (Interleaved host settings v sid) st acts
        ⟨w, Function.update st.stage i (.during s)⟩ ∧
      (.read i ∈ acts ∨ .start i ∈ acts) ∧ ∀ j t, .close j t ∉ acts := by
  unfold Session.new at hnew
  obtain ⟨opened, w₁, hopen, hnew⟩ := Action.bind_inv hnew
  obtain ⟨_, w₁', hgc, hopen⟩ := Action.bind_inv hopen
  cases hopen
  have hother : Interleaved host settings v sid st .other ⟨w₁, st.stage⟩ := .other (gc_keepsRow hgc)
  simp only [if_true] at hnew
  obtain ⟨valid, w₂, hvalid, hnew⟩ := Action.bind_inv hnew
  cases valid with
  | true =>
    -- a valid id is not empty
    split_ifs at hvalid with hempty
    · cases hvalid
    obtain ⟨⟨b, d⟩, w₃, hread, hnew⟩ := Action.bind_inv hnew
    cases hnew
    simp only at hid
    rw [hid] at hvalid hread
    have hread' : Interleaved host settings v sid ⟨w₂, Function.update st.stage i .checked⟩ (.read i)
        ⟨w, Function.update (Function.update st.stage i .checked) i _⟩ :=
      .read (Function.update_self ..) hread
    rw [Function.update_idem] at hread'
    rw [hid]
    exact ⟨_, .cons hother (.cons (.check hbefore hvalid) (.cons hread' (.nil _))),
      .inl (by simp), by simp⟩
  | false =>
    obtain ⟨sid', w₃, hsid, hnew⟩ := Action.bind_inv hnew
    have hkeeps : KeepsRow sid w₁ w₂ := by
      split_ifs at hvalid with hempty
      · cases hvalid
        exact .of_eq rfl
      · exact .of_eq (contains_sessions hvalid)
    have hother' : Interleaved host settings v sid ⟨w₁, st.stage⟩ .other ⟨w₂, st.stage⟩ :=
      .other hkeeps
    split_ifs at hnew with hempty
    · cases hnew
      cases hstarted
    · cases hnew
      obtain rfl : sid' = sid := hid
      exact ⟨_, .cons hother (.cons hother' (.cons (.start hbefore hsid) (.nil _))),
        .inr (by simp), by simp⟩

/-- `SessionLogoutController` closes its session after these calls, whatever is downstream. -/
theorem logout_handle (sm : SessionManager World) {x : Exchange World} {s : Session} {w : World}
    (hnew : Session.new sm x.req [] x.world = (.ok s, w)) :
    ∃ x', SessionLogoutController.handle sm x = .next x' fun outcome x'' =>
      .ret outcome (x''.close sm (s.applyOps (logoutOps s))) := by
  unfold SessionLogoutController.handle withSession logoutOps
  simp only [hnew]
  by_cases h : s.get USER_KEY = []
  · simp only [h, ne_eq, not_true_eq_false, if_false]
    exact ⟨_, rfl⟩
  · simp only [h, ne_eq, not_false_eq_true, if_true]
    exact ⟨_, rfl⟩

/-- Nobody who has opened the session by one of the acts, or opens it next, finds a user in it. -/
structure NobodySeen (host : Endian) (settings : SessionSettings) (v : Nat → Visit) (sid : Str)
    (as : List Act) (st : Traffic) : Prop where
  opened : ∀ i s, .read i ∈ as ∨ .start i ∈ as → st.stage i = .during s → s.get USER_KEY = []
  next : ∀ i req s w, st.stage i = .before →
    Session.new (manager host settings) req (v i).suffix st.world = (.ok s, w) →
    s.sessionStarted = true → s.id = sid → s.get USER_KEY = []

/-- An open session that holds a user was open in `st₁`, and is not opened again. -/
theorem LoggedOut.opened {st₁ st : Traffic} {as : List Act} (h : LoggedOut host sid st₁ st)
    (hrun : Run (Interleaved host settings v sid) st₁ as st) {i : Nat} {s : Session}
    (hi : .read i ∈ as ∨ .start i ∈ as) (hs : st.stage i = .during s) : s.get USER_KEY = [] := by
  refine (h.session i s hs).resolve_right fun hs₁ => ?_
  obtain ⟨-, hread, hstart⟩ := wasOpened_run (.inl hs₁) hrun
  exact hi.elim hread hstart

theorem LoggedOut.nobodySeen {st₁ st : Traffic} {as : List Act} (h : LoggedOut host sid st₁ st)
    (hrun : Run (Interleaved host settings v sid) st₁ as st) :
    NobodySeen host settings v sid as st := by
  refine ⟨fun i s hi hs => h.opened hrun hi hs, fun i req s w hbefore hnew hstarted hid => ?_⟩
  obtain ⟨acts, hacts, hi, hclose⟩ := new_interleaved (v := v) hbefore hnew hstarted hid
  have hharmless : ∀ a ∈ acts, Harmless v st₁ a := by
    intro a ha
    cases a with
    | close j t => exact absurd ha (hclose j t)
    | _ => trivial
  refine (h.run hacts hharmless).opened (hrun.append hacts) (i := i) ?_ (Function.update_self ..)
  exact hi.imp (List.mem_append_right as) (List.mem_append_right as)

theorem NobodySeen.tail {as bs : List Act} {st : Traffic}
    (h : NobodySeen host settings v sid (as ++ bs) st) : NobodySeen host settings v sid bs st :=
  ⟨fun i s hi => h.opened i s (hi.imp (List.mem_append_right as) (List.mem_append_right as)), h.next⟩

/-- **A logout lasts**: no session that is opened after it has closed holds a user, as long as
nobody writes one back.  A logout that has found a user takes it out with its statement; one that
has found none relies on what it has read. -/
theorem logout_lasts (host : Endian) (settings : SessionSettings) (v : Nat → Visit) (sid : Str)
    {st₀ st₁ st₂ st₃ st₄ st₅ : Traffic} {pre mid post : List Act} {l : Nat} {s : Session}
    (hbefore : ∀ i, st₀.stage i = .before)
    (hpre : Run (Interleaved host settings v sid) st₀ pre st₁)
    (hlogout : (v l).ops = logoutOps)
    (hread : Interleaved host settings v sid st₁ (.read l) st₂)
    (hmid : Run (Interleaved host settings v sid) st₂ mid st₃)
    (hclose : Interleaved host settings v sid st₃ (.close l s) st₄)
    (hpost : Run (Interleaved host settings v sid) st₄ post st₅) :
    (∀ x w, Session.new (manager host settings) x.req [] x.world = (.ok s, w) →
      ∃ x', SessionLogoutController.handle (manager host settings) x = .next x' fun outcome x'' =>
        .ret outcome (x''.close (manager host settings) (s.applyOps ((v l).ops s)))) ∧
    (s.get USER_KEY ≠ [] → st₃.world.faults 0 = none → (∀ a ∈ post, Harmless v st₃ a) →
      NobodySeen host settings v sid post st₅) ∧
    (s.get USER_KEY = [] → Written host sid st₀.world → st₁.world.faults 0 = none →
      (∀ a ∈ mid ++ post, Harmless v st₂ a) → NobodySeen host settings v sid post st₅) := by
  have hregular₀ : AllRegular sid st₀ := by
    intro j t ht
    rw [hbefore j] at ht
    cases ht
  have hregular₁ : AllRegular sid st₁ :=
    hpre.invariant (fun st a st' h hstep => regular_step h hstep) hregular₀
  have hstage : st₃.stage l = .during s := by
    cases hclose with
    | close hstage _ _ => exact hstage
  have hrun : Run (Interleaved host settings v sid) st₂ (mid ++ .close l s :: post) st₅ :=
    hmid.append (.cons hclose hpost)
  refine ⟨fun x w hnew => ?_, ?_, ?_⟩
  · rw [hlogout]
    exact logout_handle _ hnew
  · intro hfound hfault hharmless
    have hregular₃ : AllRegular sid st₃ :=
      (Run.cons hread hmid).invariant (fun st a st' h hstep => regular_step h hstep) hregular₁
    have hend := (loggedOut_of_logout hregular₃ hlogout hstage hfound hfault hclose).run hpost
      hharmless
    have hseen : NobodySeen host settings v sid ([.close l s] ++ post) st₅ :=
      hend.nobodySeen (.cons hclose hpost)
    exact hseen.tail
  · intro hnone hwritten hfault hharmless
    have hwritten₁ : AllRegular sid st₁ ∧ Written host sid st₁.world :=
      hpre.invariant (fun st a st' h hstep => written_step h hstep) ⟨hregular₀, hwritten⟩
    obtain ⟨s₀, hs₀⟩ : ∃ s₀, st₂.stage l = .during s₀ := by
      cases hread with
      | read _ _ => exact ⟨_, Function.update_self ..⟩
    -- the session is closed as it was opened
    obtain rfl : s₀ = s := by
      rcases (wasOpened_run (.inl hs₀) hmid).1 with h | h <;> rw [hstage] at h <;> cases h
      rfl
    have hclosed : Harmless v st₂ (.close l s₀) := by
      rintro ⟨hops, -⟩
      rw [hlogout, logoutOps, if_neg (not_not.mpr hnone)] at hops
      exact hops rfl
    have hend := (loggedOut_of_read hregular₁ hwritten₁.2 hfault hread hs₀ hnone).run hrun
      (by
        intro a ha
        simp only [List.mem_append, List.mem_cons] at ha hharmless
        rcases ha with ha | rfl | ha
        · exact hharmless a (.inl ha)
        · exact hclosed
        · exact hharmless a (.inr ha))
    rw [List.append_cons] at hrun
    exact (hend.nobodySeen hrun).tail

/-! ## One logout among others -/

/-- That only a later login brings the user back: whoever opens the session after the logout finds
nobody, unless some session has been closed in between that adds a user. -/
def LogoutFinal (v : Nat → Visit) : Prop :=
  ∀ st₀ st₁ st₂ st₃ pre post l s, (∀ i, st₀.stage i = .before) →
    Run (Interleaved .little {} v (str "s1")) st₀ pre st₁ → (v l).ops = logoutOps →
    st₁.stage l = .during s → Interleaved .little {} v (str "s1") st₁ (.close l s) st₂ →
    Run (Interleaved .little {} v (str "s1")) st₂ post st₃ →
    (∀ i s', .close i s' ∈ post → AddsNoUser ((v i).ops s')) →
    ∀ i s', .read i ∈ post ∨ .start i ∈ post → st₃.stage i = .during s' → s'.get USER_KEY = []

/-- Visitor 0 makes the given calls, visitor 1 logs out, and the others change nothing. -/
def logoutVisits (ops : List Session.Op) (i : Nat) : Visit :=
  { suffix := []
    ops := fun s => if i = 0 then ops else if i = 1 then logoutOps s else []
    resp := .init }

def userData : Dictionary := visitData.insert USER_KEY (str "7")

def sessionWith (data : Dictionary) : Session :=
  { id := str "s1", data := data, sessionStarted := true, keyName := str "WSX_SESSION_ID" }

/-- Nobody has the session open. -/
def beforeVisits (d : Dictionary) : Traffic := ⟨tableWith (str "s1") d 1000 100, fun _ => .before⟩

/-- Visitors 0 and 1 have. -/
def bothOpen (d : Dictionary) : Traffic :=
  ⟨(beforeVisits d).world, Function.update (Function.update (beforeVisits d).stage 0
    (.during (sessionWith d))) 1 (.during (sessionWith d))⟩

variable {ops : List Session.Op}

theorem reads_session {w : World} {stage : Nat → Stage} (i : Nat) (d : Dictionary)
    (hread : SQLite3.read .little (str "s1") w = (.ok (true, d), w)) :
    Interleaved .little {} (logoutVisits ops) (str "s1") ⟨w, Function.update stage i .checked⟩
      (.read i) ⟨w, Function.update stage i (.during (sessionWith d))⟩ := by
  have hread' : Interleaved .little {} (logoutVisits ops) (str "s1")
      ⟨w, Function.update stage i .checked⟩ (.read i)
      ⟨w, Function.update (Function.update stage i .checked) i _⟩ :=
    .read (Function.update_self ..) hread
  rwa [Function.update_idem] at hread'

theorem opens_session {w : World} {stage : Nat → Stage} (i : Nat) (d : Dictionary)
    (hstage : stage i = .before) (hcheck : contains (str "s1") w = (.ok true, w))
    (hread : SQLite3.read .little (str "s1") w = (.ok (true, d), w)) :
    Run (Interleaved .little {} (logoutVisits ops) (str "s1")) ⟨w, stage⟩ [.check i, .read i]
      ⟨w, Function.update stage i (.during (sessionWith d))⟩ :=
  .cons (.check hstage hcheck) (.cons (reads_session i d hread) (.nil _))

theorem bothOpen_run (d : Dictionary)
    (hread : SQLite3.read .little (str "s1") (beforeVisits d).world =
      (.ok (true, d), (beforeVisits d).world)) :
    Run (Interleaved .little {} (logoutVisits ops) (str "s1")) (beforeVisits d)
      ([.check 0, .read 0] ++ [.check 1, .read 1]) (bothOpen d) :=
  (opens_session 0 d rfl rfl hread).append (opens_session 1 d rfl rfl hread)

/-- The logout has taken the user out of the row. -/
def afterLogout : Traffic :=
  ⟨tableWith (str "s1") visitData 86500 100, Function.update (bothOpen userData).stage 1 .after⟩

theorem logout_closes : Interleaved .little {} (logoutVisits ops) (str "s1") (bothOpen userData)
    (.close 1 (sessionWith userData)) afterLogout := by
  have hfits : Fits ((sessionWith userData).applyOps [.remove USER_KEY]).data :=
    ⟨by decide, by decide, by decide⟩
  exact .close rfl hfits rfl

theorem firstOpen_run (d : Dictionary)
    (hread : SQLite3.read .little (str "s1") (beforeVisits d).world =
      (.ok (true, d), (beforeVisits d).world))
    (hcheck : contains (str "s1") (beforeVisits d).world = (.ok true, (beforeVisits d).world)) :
    Run (Interleaved .little {} (logoutVisits ops) (str "s1")) (beforeVisits d)
      ([.check 0, .read 0] ++ [.check 1]) ⟨(beforeVisits d).world, Function.update (Function.update
        (beforeVisits d).stage 0 (.during (sessionWith d))) 1 .checked⟩ :=
  (opens_session 0 d rfl hcheck hread).append (.cons (.check rfl hcheck) (.nil _))

/-- A logout that has found none has nothing to write. -/
def afterVisit : Traffic :=
  ⟨(beforeVisits visitData).world, Function.update (bothOpen visitData).stage 1 .after⟩

/-- The next visitor finds nobody, also when the logout has found nobody either. -/
theorem logout_seen_by_next : (sessionWith visitData).get USER_KEY = [] ∧
    NobodySeen .little {} (logoutVisits []) (str "s1") [.check 2, .read 2]
      ⟨afterVisit.world, Function.update afterVisit.stage 2 (.during (sessionWith visitData))⟩ := by
  have hclose : Interleaved .little {} (logoutVisits []) (str "s1") (bothOpen visitData)
      (.close 1 (sessionWith visitData)) afterVisit := .close rfl ⟨by decide, by decide, by decide⟩ rfl
  have hwritten : Written .little (str "s1") (beforeVisits visitData).world := by
    intro row hrow
    obtain rfl := Option.some.inj hrow
    exact ⟨visitData, ⟨by decide, by decide, by decide⟩, rfl⟩
  have hfound := logout_lasts .little {} (logoutVisits []) (str "s1") (fun _ => rfl)
    (firstOpen_run userData rfl rfl) rfl (reads_session 1 userData rfl) (.nil _) logout_closes
    (opens_session 2 visitData rfl rfl rfl)
  have hnone := logout_lasts .little {} (logoutVisits []) (str "s1") (fun _ => rfl)
    (firstOpen_run visitData rfl rfl) rfl (reads_session 1 visitData rfl) (.nil _) hclose
    (opens_session 2 visitData rfl rfl rfl)
  exact ⟨(hfound.2.1 (by decide) rfl (by simp [Harmless])).opened 2 _ (.inl (by simp)) rfl,
    hnone.2.2 (by decide) hwritten rfl (by simp [Harmless])⟩

/-- A session that was open when the logout closed, and closes late for the sake of another key,
brings the user back. -/
theorem stale_session_undoes_logout :
    ¬ LogoutFinal (logoutVisits [.add (str "seen") (str "1")]) := by
  intro h
  have hlate : Interleaved .little {} (logoutVisits [.add (str "seen") (str "1")]) (str "s1")
      afterLogout (.close 0 (sessionWith userData))
      ⟨tableWith (str "s1") (userData.insert (str "seen") (str "1")) 86500 100,
        Function.update afterLogout.stage 0 .after⟩ :=
    .close rfl ⟨by decide, by decide, by decide⟩ rfl
  have hadds : ∀ i s, AddsNoUser ((logoutVisits [.add (str "seen") (str "1")] i).ops s) := by
    intro i s val hadd
    unfold logoutVisits logoutOps at hadd
    simp only at hadd
    split_ifs at hadd
    · exact absurd (Session.Op.add.inj (List.mem_singleton.mp hadd)).1 (by decide)
    · cases List.mem_singleton.mp hadd
    · cases hadd
    · cases hadd
  have huser := h _ _ _ _ _ _ 1 _ (fun _ => rfl) (bothOpen_run userData rfl) rfl rfl logout_closes
    (.cons hlate (opens_session 2 (userData.insert (str "seen") (str "1")) rfl rfl rfl))
    (fun i s _ => hadds i s) 2 (sessionWith (userData.insert (str "seen") (str "1")))
    (.inl (by simp)) rfl
  exact absurd huser (by decide)

/-- So does a logout that has not seen the user of a login that closed before it. -/
theorem blind_logout_keeps_user : ¬ LogoutFinal (logoutVisits [.add USER_KEY (str "7")]) := by
  intro h
  have hlogin : Interleaved .little {} (logoutVisits [.add USER_KEY (str "7")]) (str "s1")
      (bothOpen visitData) (.close 0 (sessionWith visitData))
      ⟨tableWith (str "s1") userData 86500 100,
        Function.update (bothOpen visitData).stage 0 .after⟩ :=
    .close rfl ⟨by decide, by decide, by decide⟩ rfl
  have hlogout : Interleaved .little {} (logoutVisits [.add USER_KEY (str "7")]) (str "s1")
      ⟨tableWith (str "s1") userData 86500 100,
        Function.update (bothOpen visitData).stage 0 .after⟩ (.close 1 (sessionWith visitData))
      ⟨tableWith (str "s1") userData 86500 100,
        Function.update (Function.update (bothOpen visitData).stage 0 .after) 1 .after⟩ :=
    .close rfl ⟨by decide, by decide, by decide⟩ rfl
  have huser := h _ _ _ _ _ _ 1 _ (fun _ => rfl)
    ((bothOpen_run visitData rfl).append (.cons hlogin (.nil _))) rfl rfl hlogout
    (opens_session 2 userData rfl rfl rfl) (by simp) 2 (sessionWith userData) (.inl (by simp)) rfl
  exact absurd huser (by decide)

/-- And one whose statement fails. -/
theorem failed_logout_keeps_user : ¬ LogoutFinal (logoutVisits []) := by
  intro h
  have hfails : Interleaved .little {} (logoutVisits []) (str "s1") (bothOpen userData) .other
      ⟨{ (beforeVisits userData).world with
        faults := fun n => if n = 0 then some (.step (str "disk I/O error")) else none },
        (bothOpen userData).stage⟩ :=
    .other (.of_eq rfl)
  have hlogout : Interleaved .little {} (logoutVisits []) (str "s1")
      ⟨{ (beforeVisits userData).world with
        faults := fun n => if n = 0 then some (.step (str "disk I/O error")) else none },
        (bothOpen userData).stage⟩ (.close 1 (sessionWith userData))
      ⟨(beforeVisits userData).world, Function.update (bothOpen userData).stage 1 .after⟩ :=
    .close rfl ⟨by decide, by decide, by decide⟩ rfl
  have huser := h _ _ _ _ _ _ 1 _ (fun _ => rfl)
    ((bothOpen_run userData rfl).append (.cons hfails (.nil _))) rfl rfl hlogout
    (opens_session 2 userData rfl rfl rfl) (by simp) 2 (sessionWith userData) (.inl (by simp)) rfl
  exact absurd huser (by decide)

/-- **A logout is not final** for these three. -/
theorem logout_not_final :
    ¬ LogoutFinal (logoutVisits [.add (str "seen") (str "1")]) ∧
      ¬ LogoutFinal (logoutVisits [.add USER_KEY (str "7")]) ∧ ¬ LogoutFinal (logoutVisits []) :=
  ⟨stale_session_undoes_logout, blind_logout_keeps_user, failed_logout_keeps_user⟩

end SQLite3

end Wsrv
