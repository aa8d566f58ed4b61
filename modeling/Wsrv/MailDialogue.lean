import Wsrv.MailSubmit

/-!
# The dialogue with the server

The mailer and the server are in step when every line the mailer reads belongs
to the reply to the command it sent last (`InStep`).  `waitForResponse` reads
one line, and only `ehlo` goes on to the last one, so that a continuation line
of any other reply is taken for the reply to the next command.

As long as every reply that another command follows is a single line, the EHLO
and HELO replies apart (`Punctual`), the two stay in step, and `submit` returns
only when the server accepted every command of the mail (`dialogue_in_step`).
-/

namespace Wsrv

/-- EHLO and HELO, whose replies are read to the end. -/
def Command.isHello : Command → Bool
  | .ehlo _ => true
  | .helo _ => true
  | _ => false

namespace SMTPMailer

open Effect

/-! ## In step -/

/-- Every line that was read belongs to the reply to the command sent last. -/
def InStep (log : List Event) : Prop :=
  ∀ before n line after, log = before ++ .got n line :: after → n = (commands before).length

theorem inStep_nil : InStep [] := fun before n line after h => by simp at h

theorem inStep_concat (log : List Event) (e : Event) :
    InStep (log ++ [e]) ↔
      InStep log ∧ ∀ n line, e = .got n line → n = (commands log).length := by
  constructor
  · intro h
    refine ⟨fun before n line after hlog => ?_, fun n line he => ?_⟩
    · exact h before n line (after ++ [e]) (by simp [hlog])
    · exact h log n line [] (by rw [he])
  · rintro ⟨hlog, he⟩ before n line after hsplit
    rcases List.eq_nil_or_concat' after with rfl | ⟨after, last, rfl⟩
    · obtain ⟨rfl, hlast⟩ := List.append_inj' hsplit rfl
      exact he n line (List.singleton_inj.mp hlast)
    · rw [← List.cons_append, ← List.append_assoc] at hsplit
      exact hlog before n line after (List.append_inj' hsplit rfl).1

/-- **No reply that another command follows has a second line**, the EHLO and HELO replies apart.
Reply `k` answers command `k`, and the greeting is reply 0. -/
def Punctual (replies : List Reply) (cs : List Command) : Prop :=
  ∀ k rep, k < cs.length → replies[k]? = some rep →
    (∀ c ∈ (cs.take k).getLast?, c.isHello = false) → rep.Single

instance (replies : List Reply) (cs : List Command) : Decidable (Punctual replies cs) :=
  decidable_of_iff (∀ k < cs.length, ∀ rep ∈ replies[k]?,
      (∀ c ∈ (cs.take k).getLast?, c.isHello = false) → rep.Single)
    ⟨fun h k rep hk hrep => h k hk rep hrep, fun h k hk rep hrep => h k rep hk hrep⟩

/-! ## One line of a reply -/

theorem stoi_digits (code : Fin 1000) : stoi (Reply.digits code) = .ok ((code : Nat) : Int) := by
  have hall : ∀ code : Fin 1000, stoi (Reply.digits code) = .ok ((code : Nat) : Int) := by
    decide +kernel
  exact hall code

theorem waitForResponse_line {s : Socket} {n : Nat} {code : Fin 1000} {x : UInt8} {text : Str}
    {rest : List (Nat × Str)} (hs : s.incoming = (n, Reply.digits code ++ x :: text) :: rest) :
    waitForResponse s = (.ok ⟨code, x != '-'.toUInt8, text⟩,
      { s with log := s.log ++ [.got n (Reply.digits code ++ x :: text)], incoming := rest }) := by
  have hreceive : receive s = (.ok (Reply.digits code ++ x :: text),
      { s with log := s.log ++ [.got n (Reply.digits code ++ x :: text)], incoming := rest }) := by
    rcases s with ⟨log, incoming, replies⟩
    obtain rfl : incoming = _ := hs
    rfl
  have hlength : (Reply.digits code).length = 3 := rfl
  have hfour : ¬ (Reply.digits code ++ x :: text).length < 4 := by
    rw [List.length_append, List.length_cons, hlength]
    omega
  unfold waitForResponse
  rw [bind_ok hreceive, bind_ok (by rw [throwIf_run, if_neg hfour]),
    List.take_left' hlength, stoi_digits]
  have hx : (Reply.digits code ++ x :: text).getD 3 0 = x := by
    simp [hlength]
  have hdrop : (Reply.digits code ++ x :: text).drop 4 = text := by
    rw [List.drop_append, hlength]
    simp [List.drop_of_length_le, hlength]
  rw [hx, hdrop]
  rfl

theorem waitForResponse_silent {s : Socket} (hs : s.incoming = []) :
    waitForResponse s = (.error .noLine, s) := by
  have hreceive : receive s = (.error .noLine, s) := by
    rcases s with ⟨log, incoming, replies⟩
    obtain rfl : incoming = [] := hs
    rfl
  exact bind_error hreceive

/-! ## States of the dialogue -/

/-- The reply to the last command has been read, or a part of it when it has more lines than were
waited for. -/
structure Ready (replies : List Reply) (s : Socket) : Prop where
  fed : s.replies = replies.drop ((commands s.log).length + 1)
  inStep : InStep s.log
  rest : s.incoming ≠ [] → ∃ rep, replies[(commands s.log).length]? = some rep ∧ ¬ rep.Single ∧
    ∀ c ∈ (commands s.log).getLast?, c.isHello = false

/-- The reply to the last command is to be read. -/
structure Asked (replies : List Reply) (s : Socket) : Prop where
  fed : s.replies = replies.drop ((commands s.log).length + 1)
  inStep : InStep s.log
  arrived : s.incoming = replies[(commands s.log).length]?.toList.flatMap
    (Reply.arrive (commands s.log).length)

/-- A line of the reply to the last command has been read. -/
structure Answered (replies : List Reply) (r : ResponseLine) (s : Socket) : Prop where
  ready : Ready replies s
  reply : ∃ rep, replies[(commands s.log).length]? = some rep ∧ r.status = (rep.code : Nat) ∧
    (rep.Single → r.isLast = true) ∧ (s.incoming = [] → rep.Single)

variable {replies : List Reply}

theorem asked_connected (replies : List Reply) : Asked replies (Socket.connected replies) where
  fed := by simp [Socket.connected, commands]
  inStep := inStep_nil
  arrived := by simp [Socket.connected, commands, List.head?_eq_getElem?]

theorem commands_send (c : Command) (s : Socket) :
    commands (send c s).2.log = commands s.log ++ [c] := commands_append s.log [.sent c]

/-- A reply that another command follows has been read whole. -/
theorem Ready.empty {s : Socket} (h : Ready replies s) {c : Command}
    (hp : Punctual replies (commands s.log ++ [c])) : s.incoming = [] := by
  by_contra hne
  obtain ⟨rep, hrep, hmany, hhello⟩ := h.rest hne
  exact hmany (hp _ rep (by simp) hrep (by simpa using hhello))

theorem Ready.send {s : Socket} (h : Ready replies s) (c : Command)
    (hp : Punctual replies (commands s.log ++ [c])) : Asked replies (send c s).2 := by
  refine ⟨?_, (inStep_concat _ _).mpr ⟨h.inStep, fun n line he => by cases he⟩, ?_⟩
  · rw [commands_send, List.length_append, List.length_singleton]
    change s.replies.tail = _
    rw [h.fed, List.tail_drop]
  · rw [commands_send, List.length_append, List.length_singleton]
    change s.incoming ++ _ = _
    rw [h.empty hp, h.fed, List.head?_drop, List.nil_append]

/-- What is read of a reply when a line has come in. -/
theorem Asked.got {s : Socket} (h : Asked replies s) {n : Nat} {line : Str}
    {rest : List (Nat × Str)} (hs : s.incoming = (n, line) :: rest) :
    ∃ rep, replies[(commands s.log).length]? = some rep ∧
      InStep (s.log ++ [.got n line]) ∧ (line :: rest.map Prod.snd) = rep.lines := by
  have harrived := h.arrived
  cases hrep : replies[(commands s.log).length]? with
  | none =>
    rw [hrep, hs] at harrived
    cases harrived
  | some rep =>
    rw [hrep, hs, Option.toList_some, List.flatMap_singleton] at harrived
    have hmap := congrArg (List.map Prod.snd) harrived
    have hown : n = (commands s.log).length := by
      have hmem : (n, line) ∈ Reply.arrive (commands s.log).length rep := harrived ▸ List.mem_cons_self
      obtain ⟨_, -, he⟩ := List.mem_map.mp hmem
      exact (congrArg Prod.fst he).symm
    refine ⟨rep, rfl, (inStep_concat _ _).mpr ⟨h.inStep, fun n' line' he => ?_⟩, ?_⟩
    · cases he
      exact hown
    · simpa [Reply.arrive] using hmap

/-- `waitForResponse` reads the first line of a reply. -/
theorem Asked.waitForResponse {s : Socket} (h : Asked replies s)
    (hhello : ∀ c ∈ (commands s.log).getLast?, c.isHello = false) :
    (∃ r s', waitForResponse s = (.ok r, s') ∧ Answered replies r s' ∧
        commands s'.log = commands s.log) ∨
      waitForResponse s = (.error .noLine, s) ∧ Ready replies s := by
  cases hin : s.incoming with
  | nil =>
    exact .inr ⟨waitForResponse_silent hin, h.fed, h.inStep, fun hne => absurd hin hne⟩
  | cons t rest =>
    obtain ⟨n, line⟩ := t
    obtain ⟨rep, hrep, hstep, hlines⟩ := h.got hin
    -- the first line of a reply is a continuation line or the last one
    obtain ⟨x, text, hline, hsingle, hmany⟩ : ∃ x text, line = Reply.digits rep.code ++ x :: text ∧
        (rep.Single → x ≠ '-'.toUInt8 ∧ rest = []) ∧ (¬ rep.Single → rest ≠ []) := by
      unfold Reply.lines at hlines
      cases hc : rep.continued with
      | nil =>
        rw [hc] at hlines
        exact ⟨rep.sep, rep.text, (List.cons.inj hlines).1,
          fun _ => ⟨rep.sep_ne, by simpa using (List.cons.inj hlines).2⟩, fun hm => absurd hc hm⟩
      | cons t ts =>
        rw [hc] at hlines
        refine ⟨'-'.toUInt8, t, (List.cons.inj hlines).1, fun hs => ?_, fun _ hr => ?_⟩
        · exact absurd (hs.symm.trans hc) (by simp)
        · simp [hr] at hlines
    rw [hline] at hin
    have hcommands : commands (s.log ++ [.got n (Reply.digits rep.code ++ x :: text)]) =
        commands s.log := by simp
    refine .inl ⟨_, _, waitForResponse_line hin, ⟨⟨?_, ?_, fun hne => ?_⟩, ?_⟩, hcommands⟩
    · rw [hcommands]
      exact h.fed
    · exact hline ▸ hstep
    · rw [hcommands]
      exact ⟨rep, hrep, fun hs => hne (hsingle hs).2, hhello⟩
    · rw [hcommands]
      refine ⟨rep, hrep, rfl, fun hs => by simpa using (hsingle hs).1, fun he => ?_⟩
      by_contra hs
      exact hmany hs he

theorem inStep_got {log : List Event} (h : InStep log) {n : Nat} (hn : n = (commands log).length)
    (line : Str) :
    commands (log ++ [.got n line]) = commands log ∧ InStep (log ++ [.got n line]) := by
  refine ⟨by simp, (inStep_concat _ _).mpr ⟨h, fun n' line' he => ?_⟩⟩
  cases he
  exact hn

/-- The loop reads a reply to its end. -/
theorem waitForLast_reply (code : Fin 1000) (n : Nat) {x : UInt8} (hx : x ≠ '-'.toUInt8) (text : Str)
    (texts : List Str) (s : Socket)
    (hs : s.incoming.map Prod.snd = (texts.map fun t => Reply.digits code ++ '-'.toUInt8 :: t) ++
      [Reply.digits code ++ x :: text])
    (hown : ∀ t ∈ s.incoming, t.1 = n) (hn : (commands s.log).length = n) (hstep : InStep s.log) :
    ∃ r s', waitForLast s.incoming.length s = (.ok r, s') ∧ s'.incoming = [] ∧
      s'.replies = s.replies ∧ commands s'.log = commands s.log ∧ InStep s'.log := by
  induction texts generalizing s with
  | nil =>
    obtain ⟨⟨m, line⟩, rest, hin, hline, hrest⟩ := List.map_eq_cons_iff.mp hs
    obtain rfl : rest = [] := List.map_eq_nil_iff.mp hrest
    simp only at hline
    rw [hline] at hin
    have hm : m = (commands s.log).length := (hown _ (hin ▸ List.mem_cons_self)).trans hn.symm
    obtain ⟨hcommands, hstep'⟩ := inStep_got hstep hm (Reply.digits code ++ x :: text)
    refine ⟨⟨code, x != '-'.toUInt8, text⟩, { s with log := s.log ++ [.got m _], incoming := [] }, ?_,
      rfl, rfl, hcommands, hstep'⟩
    rw [hin, List.length_singleton, waitForLast, bind_ok (waitForResponse_line hin), ite_run,
      if_pos (by simpa using hx)]
    rfl
  | cons t texts ih =>
    obtain ⟨⟨m, line⟩, rest, hin, hline, hrest⟩ := List.map_eq_cons_iff.mp hs
    simp only at hline
    rw [hline] at hin
    have hm : m = (commands s.log).length := (hown _ (hin ▸ List.mem_cons_self)).trans hn.symm
    obtain ⟨hcommands, hstep'⟩ := inStep_got hstep hm (Reply.digits code ++ '-'.toUInt8 :: t)
    have hown' : ∀ t ∈ rest, t.1 = n := fun t ht => hown t (hin ▸ List.mem_cons_of_mem _ ht)
    obtain ⟨r, s', hrun, hempty, hreplies, hcs, hlast⟩ := ih
      { s with log := s.log ++ [.got m (Reply.digits code ++ '-'.toUInt8 :: t)], incoming := rest }
      hrest hown' (by rw [hcommands, hn]) hstep'
    refine ⟨r, s', ?_, hempty, hreplies, by rw [hcs, hcommands], hlast⟩
    rw [hin, List.length_cons, waitForLast, bind_ok (waitForResponse_line hin), ite_run,
      if_neg (by simp)]
    exact hrun

theorem Asked.waitForReply {s : Socket} (h : Asked replies s) :
    (∃ r s', waitForReply s = (.ok r, s') ∧ Ready replies s' ∧ commands s'.log = commands s.log) ∨
      waitForReply s = (.error .noLine, s) ∧ Ready replies s := by
  have hrun : SMTPMailer.waitForReply s = waitForLast s.incoming.length s :=
    bind_ok (get_run s)
  rw [hrun]
  cases hrep : replies[(commands s.log).length]? with
  | none =>
    have hin : s.incoming = [] := by
      rw [h.arrived, hrep]
      rfl
    rw [hin]
    exact .inr ⟨rfl, h.fed, h.inStep, fun hne => absurd hin hne⟩
  | some rep =>
    have hin : s.incoming = Reply.arrive (commands s.log).length rep := by
      rw [h.arrived, hrep, Option.toList_some, List.flatMap_singleton]
    have hown : ∀ t ∈ s.incoming, t.1 = (commands s.log).length := by
      rw [hin]
      rintro _ ht
      obtain ⟨_, -, rfl⟩ := List.mem_map.mp ht
      rfl
    have hmap : s.incoming.map Prod.snd = rep.lines := by
      rw [hin, Reply.arrive, List.map_map]
      exact List.map_id _
    obtain ⟨r, s', hlast, hempty, hreplies, hcs, hstep⟩ := waitForLast_reply rep.code _ rep.sep_ne
      rep.text rep.continued s hmap hown rfl h.inStep
    refine .inl ⟨r, s', hlast, ⟨?_, hstep, fun hne => absurd hempty hne⟩, hcs⟩
    rw [hreplies, hcs]
    exact h.fed

/-! ## Rules -/

/-- What holds of a state that a punctual dialogue has led to. -/
def OnTime (replies : List Reply) (P : Socket → Prop) (s : Socket) : Prop :=
  Punctual replies (commands s.log) → P s

/-- Between two commands, when the commands so far are `A`: a reply that was not read to its end
may yet be a refusal. -/
def Between (replies : List Reply) (A : List Command → Prop) (s : Socket) : Prop :=
  Ready replies s ∧ (s.incoming = [] → A (commands s.log))

theorem sends_waitForLast (n : Nat) : Sends [] (waitForLast n) := by
  induction n with
  | zero => exact .throw _ _
  | succ n ih =>
    refine Sends.bind sends_waitForResponse fun r => ?_
    split
    · exact .pure r
    · exact ih

theorem sends_waitForReply : Sends [] waitForReply := fun before s hs =>
  sends_waitForLast s.incoming.length before s hs

theorem Punctual.of_append {cs cs' : List Command} (h : Punctual replies (cs ++ cs')) :
    Punctual replies cs := by
  intro k rep hk hrep hhello
  refine h k rep (by rw [List.length_append]; omega) hrep ?_
  rwa [List.take_append_of_le_length (by omega)]

variable {A : List Command → Prop} {α : Type} {Q : α → Socket → Prop}

/-- A command and what is read behind it.  Nothing is said about a dialogue that is not punctual. -/
theorem triple_exchange {c : Command} {wait : Dialog ResponseLine} {P : Socket → Prop}
    {P' : ResponseLine → Socket → Prop} {f : ResponseLine → Dialog α} (hwait : Sends [] wait)
    (hread : ∀ s, OnTime replies P s → Punctual replies (commands (send c s).2.log) →
      (∃ r s', wait (send c s).2 = (.ok r, s') ∧ P' r s') ∨
        ∃ e s', wait (send c s).2 = (.error e, s') ∧ Ready replies s')
    (hf : ∀ r, Triple (OnTime replies (P' r)) (f r) Q fun _ => OnTime replies (Ready replies)) :
    Triple (OnTime replies P) (do send c; let r ← wait; f r) Q
      fun _ => OnTime replies (Ready replies) := by
  intro s hs
  have hsend : send c s = (.ok (), (send c s).2) := rfl
  rw [bind_ok hsend]
  have hsends := hwait (commands (send c s).2.log) (send c s).2 rfl
  rcases hrun : wait (send c s).2 with ⟨e | r, s₂⟩
  · rw [bind_error hrun]
    refine ⟨fun a s' heq => (by cases heq), fun e' s' heq hp => ?_⟩
    cases heq
    obtain ⟨done, hdone, hcs⟩ := hsends.2 e s₂ hrun
    obtain rfl := List.prefix_nil.mp hdone
    rw [hcs, List.append_nil] at hp
    rcases hread s hs hp with ⟨r, s', hrun', -⟩ | ⟨e', s', hrun', hready⟩
    · cases hrun.symm.trans hrun'
    · rwa [(Prod.mk.inj (hrun.symm.trans hrun')).2]
  · rw [bind_ok hrun]
    refine hf r s₂ fun hp => ?_
    rw [hsends.1 r s₂ hrun, List.append_nil] at hp
    rcases hread s hs hp with ⟨r', s', hrun', hP⟩ | ⟨e, s', hrun', -⟩
    · cases hrun.symm.trans hrun'
      exact hP
    · cases hrun.symm.trans hrun'

/-- A command and the first line of its reply. -/
theorem triple_ask {c : Command} (hc : c.isHello = false) {f : ResponseLine → Dialog α}
    (hf : ∀ r, Triple (OnTime replies fun s => Answered replies r s ∧
        ∃ cs, commands s.log = cs ++ [c] ∧ A cs) (f r) Q fun _ => OnTime replies (Ready replies)) :
    Triple (OnTime replies (Between replies A))
      (do send c; let r ← waitForResponse; f r) Q fun _ => OnTime replies (Ready replies) := by
  refine triple_exchange sends_waitForResponse (fun s hs hp => ?_) hf
  have hcs := commands_send c s
  rw [hcs] at hp
  obtain ⟨hready, hA⟩ := hs hp.of_append
  have hempty := hready.empty hp
  have hasked : Asked replies (send c s).2 := hready.send c hp
  have hlast : ∀ d ∈ (commands (send c s).2.log).getLast?, d.isHello = false := by
    rw [hcs]
    simpa using hc
  rcases hasked.waitForResponse hlast with ⟨r, s₂, hrun, hanswered, hcs₂⟩ | ⟨hrun, hready₁⟩
  · exact .inl ⟨r, s₂, hrun, hanswered, _, hcs₂.trans hcs, hA hempty⟩
  · exact .inr ⟨_, _, hrun, hready₁⟩

/-- EHLO or HELO and the whole of its reply. -/
theorem triple_greet {c : Command} {f : ResponseLine → Dialog α}
    (hf : ∀ r, Triple (OnTime replies (Ready replies)) (f r) Q
      fun _ => OnTime replies (Ready replies)) :
    Triple (OnTime replies (Ready replies))
      (do send c; let r ← waitForReply; f r) Q fun _ => OnTime replies (Ready replies) := by
  refine triple_exchange sends_waitForReply (fun s hs hp => ?_) hf
  rw [commands_send] at hp
  have hasked : Asked replies (send c s).2 := (hs hp.of_append).send c hp
  rcases hasked.waitForReply with ⟨r, s₂, hrun, hready₂, -⟩ | ⟨hrun, hready₁⟩
  · exact .inl ⟨r, s₂, hrun, hready₂⟩
  · exact .inr ⟨_, _, hrun, hready₁⟩

/-! ## Logging in -/

theorem triple_throwIf {P : Socket → Prop} (p : Prop) [Decidable p] (e : MailStop)
    (h : ∀ s, P s → Ready replies s) :
    Triple (OnTime replies P) (throwIf p e) (fun _ => OnTime replies P)
      fun _ => OnTime replies (Ready replies) :=
  (Triple.throwIf fun s _ hs hp => h s (hs hp)).weaken (fun _ hs => hs) fun _ _ hs => hs.2

/-- A command whose verdict may throw, and what comes next. -/
theorem triple_step {c : Command} (hc : c.isHello = false) {verdict : ResponseLine → Dialog Unit}
    (hverdict : ∀ r, Triple (OnTime replies (Ready replies)) (verdict r)
      (fun _ => OnTime replies (Ready replies)) fun _ => OnTime replies (Ready replies))
    {next : Dialog α} (hnext : Triple (OnTime replies (Ready replies)) next Q
      fun _ => OnTime replies (Ready replies)) :
    Triple (OnTime replies (Ready replies))
      (do send c; let r ← waitForResponse; verdict r; next) Q
      fun _ => OnTime replies (Ready replies) := by
  have hask := triple_ask (A := fun _ => True) (f := fun r => do verdict r; next) hc fun r =>
    ((hverdict r).weaken (fun s hs hp => (hs hp).1.ready) fun _ _ hs => hs).bind fun _ => hnext
  exact hask.weaken (fun s hs hp => ⟨hs hp, fun _ => trivial⟩) fun _ _ hs => hs

theorem triple_ehlo (srcHostname : Str) :
    Triple (OnTime replies (Ready replies)) (ehlo srcHostname)
      (fun _ => OnTime replies (Ready replies)) fun _ => OnTime replies (Ready replies) := by
  refine triple_greet fun r => ?_
  refine Triple.ite (fun _ => ?_) fun _ => .pure fun _ hs => hs
  exact triple_greet fun _ => triple_throwIf _ _ fun _ hs => hs

theorem triple_authLogin (username password : Str) :
    Triple (OnTime replies (Ready replies)) (authLogin username password)
      (fun _ => OnTime replies (Ready replies)) fun _ => OnTime replies (Ready replies) := by
  refine triple_step rfl (fun _ => triple_throwIf _ _ fun _ hs => hs) ?_
  refine triple_step rfl (fun _ => triple_throwIf _ _ fun _ hs => hs) ?_
  have hask := triple_ask (A := fun _ => True)
    (c := .password (base64Encode password)) (Q := fun _ => OnTime replies (Ready replies)) rfl
    fun r => (triple_throwIf (r.isLast && !positiveCompletion r.status)
      (.smtpError (str "Password rejection.")) fun _ (hs : Ready replies _) => hs).weaken
      (fun s hs hp => (hs hp).1.ready) fun _ _ hs => hs
  exact hask.weaken (fun s hs hp => ⟨hs hp, fun _ => trivial⟩) fun _ _ hs => hs

theorem triple_startTls (srcHostname : Str) :
    Triple (OnTime replies (Ready replies)) (startTls srcHostname)
      (fun _ => OnTime replies (Ready replies)) fun _ => OnTime replies (Ready replies) :=
  triple_step rfl (fun _ => triple_throwIf _ _ fun _ hs => hs)
    ((Triple.pure fun _ hs => hs).bind fun _ => triple_ehlo srcHostname)

/-- The greeting is read behind no command. -/
theorem triple_connect :
    Triple (fun s => s = Socket.connected replies) connect
      (fun _ => OnTime replies (Ready replies)) fun _ => OnTime replies (Ready replies) := by
  rintro s rfl
  have hnone : ∀ c ∈ (commands (Socket.connected replies).log).getLast?, c.isHello = false := by
    simp [Socket.connected, commands]
  rcases (asked_connected replies).waitForResponse hnone with ⟨r, s', hrun, hanswered, -⟩ | ⟨hrun, hready⟩
  · have hthrow := triple_throwIf (r.status ≠ 220) (.smtpError (str "Connection rejection."))
      (fun s (hs : Ready replies s) => hs) s' fun _ => hanswered.ready
    unfold connect
    rwa [bind_ok hrun]
  · unfold connect
    rw [bind_error hrun]
    refine ⟨fun a s' heq => (by cases heq), fun e s' heq => ?_⟩
    cases heq
    exact fun _ => hready

theorem triple_authenticate (srcHostname username password : Str) (method : AuthMethod) :
    Triple (fun s => s = Socket.connected replies) (authenticate srcHostname username password method)
      (fun _ => OnTime replies (Ready replies)) fun _ => OnTime replies (Ready replies) := by
  have hssl : Triple (fun s => s = Socket.connected replies) switchToSsl
      (fun _ s => s = Socket.connected replies) fun _ => OnTime replies (Ready replies) :=
    .pure fun _ hs => hs
  cases method with
  | none => exact hssl.bind fun _ => triple_connect.bind fun _ => triple_ehlo srcHostname
  | login =>
    exact hssl.bind fun _ => triple_connect.bind fun _ => (triple_ehlo srcHostname).bind fun _ =>
      triple_authLogin username password
  | startTls =>
    exact triple_connect.bind fun _ => (triple_ehlo srcHostname).bind fun _ =>
      (triple_startTls srcHostname).bind fun _ => triple_authLogin username password

/-! ## Submitting -/

/-- The first digit of the reply that accepts a command of a mail. -/
def wanted : Command → Nat
  | .data => 3
  | _ => 2

/-- The server accepted the commands from number `n` on. -/
def Accepted (replies : List Reply) (n : Nat) (cs : List Command) : Prop :=
  ∀ k c, n ≤ k → cs[k]? = some c →
    ∃ rep, replies[k + 1]? = some rep ∧ (rep.code : Nat) / 100 = wanted c

theorem Accepted.concat {n : Nat} {cs : List Command} (h : Accepted replies n cs) {c : Command}
    {rep : Reply} (hrep : replies[cs.length + 1]? = some rep)
    (hcode : (rep.code : Nat) / 100 = wanted c) : Accepted replies n (cs ++ [c]) := by
  intro k d hk hd
  rcases Nat.lt_trichotomy k cs.length with hlt | rfl | hgt
  · rw [List.getElem?_append_left hlt] at hd
    exact h k d hk hd
  · obtain rfl : c = d := by simpa using hd
    exact ⟨rep, hrep, hcode⟩
  · rw [List.getElem?_eq_none (by simp; omega)] at hd
    cases hd

theorem positiveCompletion_iff (n : Nat) : positiveCompletion n = true ↔ n / 100 = 2 := by
  have htdiv : (n : Int).tdiv 100 = ((n / 100 : Nat) : Int) := rfl
  rw [positiveCompletion, htdiv, beq_iff_eq]
  omega

theorem positiveIntermediate_iff (n : Nat) : positiveIntermediate n = true ↔ n / 100 = 3 := by
  have htdiv : (n : Int).tdiv 100 = ((n / 100 : Nat) : Int) := rfl
  rw [positiveIntermediate, htdiv, beq_iff_eq]
  omega

/-- The verdict `p` on a reply accepts the command, when the reply was read to its end. -/
def Judges (p : ResponseLine → Bool) (c : Command) : Prop :=
  ∀ (r : ResponseLine) (code : Nat), r.status = (code : Int) → r.isLast = true → p r = false →
    code / 100 = wanted c

theorem judges_completion {c : Command} (h : wanted c = 2) :
    Judges (fun r => !positiveCompletion r.status) c := fun r code hr _ hp => by
  rw [h, ← positiveCompletion_iff, ← hr]
  simpa using hp

theorem judges_lastCompletion {c : Command} (h : wanted c = 2) :
    Judges (fun r => r.isLast && !positiveCompletion r.status) c := fun r code hr hlast hp => by
  rw [h, ← positiveCompletion_iff, ← hr]
  simpa [hlast] using hp

theorem judges_intermediate {c : Command} (h : wanted c = 3) :
    Judges (fun r => !positiveIntermediate r.status) c := fun r code hr _ hp => by
  rw [h, ← positiveIntermediate_iff, ← hr]
  simpa using hp

/-- A command, its verdict, and what comes next. -/
theorem triple_accept {n : Nat} {c : Command} (hc : c.isHello = false) {p : ResponseLine → Bool}
    (hp : Judges p c) (e : MailStop) {next : Dialog α}
    (hnext : Triple (OnTime replies (Between replies (Accepted replies n))) next Q
      fun _ => OnTime replies (Ready replies)) :
    Triple (OnTime replies (Between replies (Accepted replies n)))
      (do send c; let r ← waitForResponse; throwIf (p r) e; next) Q
      fun _ => OnTime replies (Ready replies) := by
  refine triple_ask (f := fun r => do throwIf (p r) e; next) hc fun r => ?_
  refine (Triple.throwIf fun s _ hs hpunctual => (hs hpunctual).1.ready).bind fun _ => ?_
  refine hnext.weaken (fun s hs hpunctual => ?_) fun _ _ hs => hs
  obtain ⟨hverdict, hanswered⟩ := hs
  obtain ⟨⟨hready, rep, hrep, hstatus, hlast, hwhole⟩, cs, hcs, haccepted⟩ := hanswered hpunctual
  refine ⟨hready, fun hempty => ?_⟩
  rw [hcs] at hrep ⊢
  rw [List.length_append, List.length_singleton] at hrep
  exact haccepted.concat hrep (hp r _ hstatus (hlast (hwhole hempty)) (by simpa using hverdict))

theorem triple_submitRecipients {n : Nat} (rejection : Str) (recipients : List MailAddress) :
    Triple (OnTime replies (Between replies (Accepted replies n)))
      (submitRecipients rejection recipients)
      (fun _ => OnTime replies (Between replies (Accepted replies n)))
      fun _ => OnTime replies (Ready replies) := by
  induction recipients with
  | nil => exact .pure fun _ hs => hs
  | cons rcpt rest ih => exact triple_accept rfl (judges_completion rfl) _ ih

/-- The last verdict of a mail, on a line whatever follows it. -/
theorem triple_message {n : Nat} (text : Str) (e : MailStop) :
    Triple (OnTime replies (Between replies (Accepted replies n)))
      (do send (.message text); let r ← waitForResponse; throwIf (!positiveCompletion r.status) e)
      (fun _ => OnTime replies fun s => Ready replies s ∧ Accepted replies n (commands s.log))
      fun _ => OnTime replies (Ready replies) := by
  refine triple_ask rfl fun r => ?_
  refine (Triple.throwIf fun s _ hs hpunctual => (hs hpunctual).1.ready).weaken (fun _ hs => hs)
    fun _ s hs hpunctual => ?_
  obtain ⟨hverdict, hanswered⟩ := hs
  obtain ⟨⟨hready, rep, hrep, hstatus, -, -⟩, cs, hcs, haccepted⟩ := hanswered hpunctual
  refine ⟨hready, ?_⟩
  rw [hcs] at hrep ⊢
  rw [List.length_append, List.length_singleton] at hrep
  refine haccepted.concat hrep ((positiveCompletion_iff rep.code).mp ?_)
  rw [← hstatus]
  simpa using hverdict

theorem triple_submit {n : Nat} (msg : SMTPMessage) (boundary : Str) :
    Triple (OnTime replies (Between replies (Accepted replies n))) (submit msg boundary)
      (fun _ => OnTime replies fun s => Ready replies s ∧ Accepted replies n (commands s.log))
      fun _ => OnTime replies (Ready replies) := by
  refine triple_accept rfl (judges_lastCompletion rfl) _ ?_
  refine (triple_submitRecipients _ _).bind fun _ => ?_
  refine (triple_submitRecipients _ _).bind fun _ => ?_
  refine (triple_submitRecipients _ _).bind fun _ => ?_
  exact triple_accept rfl (judges_intermediate rfl) _ (triple_message _ _)

/-! ## Whole dialogues -/

/-- A caller that logs in and submits mails one after the other, each with the boundary it draws.
It may catch what a call throws and go on. -/
structure Caller where
  srcHostname : Str
  username : Str
  password : Str
  method : AuthMethod

/-- The connection behind the calls. -/
def Caller.run (caller : Caller) (replies : List Reply) (mails : List (SMTPMessage × Str)) : Socket :=
  mails.foldl (fun s mail => (submit mail.1 mail.2 s).2)
    (authenticate caller.srcHostname caller.username caller.password caller.method
      (Socket.connected replies)).2

theorem triple_state {P Q' : Socket → Prop} {x : Dialog α}
    (h : Triple P x (fun _ => Q') fun _ => Q') {s : Socket} (hs : P s) : Q' (x s).2 := by
  rcases hrun : x s with ⟨e | a, s'⟩
  · exact (h s hs).2 e s' hrun
  · exact (h s hs).1 a s' hrun

/-- A submission may begin in every state that is ready. -/
theorem between_of_ready {s : Socket} (h : OnTime replies (Ready replies) s) :
    OnTime replies (Between replies (Accepted replies (commands s.log).length)) s := fun hp =>
  ⟨h hp, fun _ k c hk hc => absurd hc (by simp [List.getElem?_eq_none hk])⟩

theorem run_ready (caller : Caller) (replies : List Reply) (mails : List (SMTPMessage × Str)) :
    OnTime replies (Ready replies) (caller.run replies mails) := by
  unfold Caller.run
  have hstart : OnTime replies (Ready replies) (authenticate caller.srcHostname caller.username
      caller.password caller.method (Socket.connected replies)).2 :=
    triple_state (triple_authenticate _ _ _ _) rfl
  generalize (authenticate caller.srcHostname caller.username caller.password caller.method
    (Socket.connected replies)).2 = s at hstart ⊢
  induction mails generalizing s with
  | nil => exact hstart
  | cons mail mails ih =>
    refine ih _ (triple_state (x := submit mail.1 mail.2) ?_ (between_of_ready hstart))
    exact (triple_submit mail.1 mail.2).weaken (fun _ hs => hs) fun _ _ hs hp => (hs hp).1

/-- **The dialogue stays in step, and a mail is submitted only when the server accepted every
command of it**, as long as no reply that another command follows has a second line. -/
theorem dialogue_in_step (caller : Caller) (replies : List Reply) (mails : List (SMTPMessage × Str))
    (h : Punctual replies (commands (caller.run replies mails).log)) :
    InStep (caller.run replies mails).log ∧
      ∀ before msg boundary, mails = before ++ [(msg, boundary)] →
        (submit msg boundary (caller.run replies before)).1 = .ok () →
        ∀ i c, (submitCommands msg boundary)[i]? = some c → ∃ rep,
          replies[(commands (caller.run replies before).log).length + i + 1]? = some rep ∧
            (rep.code : Nat) / 100 = wanted c := by
  refine ⟨(run_ready caller replies mails h).inStep, ?_⟩
  rintro before msg boundary rfl hok i c hc
  have hlast : caller.run replies (before ++ [(msg, boundary)]) =
      (submit msg boundary (caller.run replies before)).2 := by
    simp [Caller.run]
  rw [hlast] at h
  rcases hrun : submit msg boundary (caller.run replies before) with ⟨r, s'⟩
  rw [hrun] at h hok
  obtain rfl : r = .ok () := hok
  have hsent := (submit_sends msg boundary (commands (caller.run replies before).log)
    (caller.run replies before) rfl).1 () s' hrun
  have haccepted := ((triple_submit msg boundary (caller.run replies before)
    (between_of_ready (run_ready caller replies before))).1 () s' hrun h).2
  refine haccepted _ c (by omega) ?_
  rw [hsent, List.getElem?_append_right (by omega), Nat.add_sub_cancel_left]
  exact hc

/-- A caller that submits without logging in. -/
def guest : Caller := ⟨str "me", [], [], .none⟩

/-- A server that accepts one mail, behind a reply of two lines to EHLO. -/
def welcome : List Reply :=
  [{ code := 220 }, { code := 250, continued := [str "x.org"], text := str "AUTH LOGIN" },
    { code := 250 }, { code := 250 }, { code := 354 }, { code := 250 }]

theorem guest_in_step :
    InStep (guest.run welcome [(plainMail, [])]).log ∧
      (submit plainMail [] (guest.run welcome [])).1 = .ok () ∧
        ∀ i c, (submitCommands plainMail [])[i]? = some c → ∃ rep,
          welcome[(commands (guest.run welcome []).log).length + i + 1]? = some rep ∧
            (rep.code : Nat) / 100 = wanted c := by
  have hrun := dialogue_in_step guest welcome [(plainMail, [])] (by decide +kernel)
  have hok : (submit plainMail [] (guest.run welcome [])).1 = .ok () := by decide +kernel
  exact ⟨hrun.1, hok, hrun.2 [] plainMail [] rfl hok⟩

/-- A server that accepts the sender in two lines, and refuses the recipient. -/
def refusal : List Reply :=
  [{ code := 220 }, { code := 250 }, { code := 250, continued := [str "sender"] }, { code := 550 },
    { code := 503 }]

/-- The second line of the reply to MAIL is taken for the reply to RCPT, and the refusal of the
recipient for the reply to DATA. -/
theorem recipient_judged_early : ¬ InStep (guest.run refusal [(plainMail, [])]).log := by
  intro h
  have hread := h ((guest.run refusal [(plainMail, [])]).log.take 6) 2 (str "250 ")
    ((guest.run refusal [(plainMail, [])]).log.drop 7) (by decide +kernel)
  exact absurd hread (by decide +kernel)

end SMTPMailer

end Wsrv
