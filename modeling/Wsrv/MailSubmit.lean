import Wsrv.Mailer

/-!
# What `submit` sends

In every run `submit` sends a beginning of the commands of its message, and all of them when it
returns (`submit_sends`).  So every recipient is announced, the hidden ones with them.  The text of
the mail names no hidden recipient, but it tells whether there is one (`bcc_hidden_iff`).
-/

namespace Wsrv.SMTPMailer

open Effect

/-! ## The commands of a call -/

@[simp] theorem commands_append (a b : List Event) : commands (a ++ b) = commands a ++ commands b :=
  List.filterMap_append

@[simp] theorem commands_sent (c : Command) : commands [.sent c] = [c] := rfl

@[simp] theorem commands_got (n : Nat) (line : Str) : commands [.got n line] = [] := rfl

/-- A computation that returns with the commands `cs` sent, and throws with a beginning of them
sent. -/
def Sends {α : Type} (cs : List Command) (x : Dialog α) : Prop :=
  ∀ before, Triple (fun s => commands s.log = before) x (fun _ s => commands s.log = before ++ cs)
    fun _ s => ∃ done, done <+: cs ∧ commands s.log = before ++ done

theorem Sends.pure {α : Type} (a : α) : Sends [] (pure a) := fun before =>
  Triple.pure fun s hs => by simpa using hs

theorem Sends.throw {α : Type} (e : MailStop) (cs : List Command) :
    Sends cs (throw e : Dialog α) := fun before s hs => by
  refine ⟨fun a s' heq => (by cases heq), fun e' s' heq => ?_⟩
  cases heq
  exact ⟨[], List.nil_prefix, by simpa using hs⟩

theorem Sends.bind {α β : Type} {cs cs' : List Command} {x : Dialog α} {f : α → Dialog β}
    (hx : Sends cs x) (hf : ∀ a, Sends cs' (f a)) : Sends (cs ++ cs') (x >>= f) := fun before => by
  have hx' := hx before
  have hf' := fun a => hf a (before ++ cs)
  intro s hs
  rcases hrun : x s with ⟨e | a, s'⟩
  · rw [bind_error hrun]
    refine ⟨fun b s'' heq => (by cases heq), fun e' s'' heq => ?_⟩
    cases heq
    obtain ⟨done, hpre, hdone⟩ := (hx' s hs).2 e s' hrun
    exact ⟨done, hpre.trans (List.prefix_append _ _), hdone⟩
  · rw [bind_ok hrun]
    obtain ⟨hok, herror⟩ := hf' a s' ((hx' s hs).1 a s' hrun)
    refine ⟨fun b s'' heq => (hok b s'' heq).trans (List.append_assoc ..), fun e s'' heq => ?_⟩
    obtain ⟨done, hpre, hdone⟩ := herror e s'' heq
    exact ⟨cs ++ done, (List.prefix_append_right_inj cs).mpr hpre, hdone.trans (List.append_assoc ..)⟩

theorem sends_send (c : Command) : Sends [c] (send c) := fun before s hs => by
  refine ⟨fun a s' heq => ?_, fun e s' heq => (by cases heq)⟩
  cases heq
  simp [hs]

theorem sends_receive : Sends [] receive := fun before s hs => by
  rcases s with ⟨log, _ | ⟨⟨n, line⟩, rest⟩, replies⟩
  · refine ⟨fun a s' heq => (by cases heq), fun e s' heq => ?_⟩
    cases heq
    exact ⟨[], List.nil_prefix, by simpa using hs⟩
  · refine ⟨fun a s' heq => ?_, fun e s' heq => (by cases heq)⟩
    cases heq
    simpa using hs

theorem sends_throwIf (p : Prop) [Decidable p] (e : MailStop) : Sends [] (throwIf p e) := by
  unfold throwIf
  split
  · exact .throw e []
  · exact .pure ()

theorem sends_waitForResponse : Sends [] waitForResponse := by
  refine Sends.bind sends_receive fun line => ?_
  refine Sends.bind (sends_throwIf _ _) fun _ => ?_
  split
  · exact .pure _
  · exact .throw _ _

/-- A command, the first line of its reply and a verdict on that. -/
theorem sends_exchange {α : Type} {cs : List Command} (c : Command) {verdict : ResponseLine → Dialog Unit}
    {next : Dialog α} (hverdict : ∀ r, Sends [] (verdict r)) (hnext : Sends cs next) :
    Sends (c :: cs) (do send c; let r ← waitForResponse; verdict r; next) := by
  refine Sends.bind (sends_send c) fun _ => ?_
  refine Sends.bind sends_waitForResponse fun r => ?_
  exact Sends.bind (hverdict r) fun _ => hnext

/-! ## The commands of a message -/

/-- `RCPT TO` for each recipient. -/
def rcptCommands (recipients : List MailAddress) : List Command :=
  recipients.map fun rcpt => .rcptTo rcpt.address

/-- What the message asks to send. -/
def submitCommands (msg : SMTPMessage) (boundary : Str) : List Command :=
  .mailFrom msg.sender.address ::
    (rcptCommands msg.recipients ++ rcptCommands msg.ccRecipients ++
      rcptCommands msg.bccRecipients ++ [.data, .message (msg.format boundary)])

theorem sends_submitRecipients (rejection : Str) (recipients : List MailAddress) :
    Sends (rcptCommands recipients) (submitRecipients rejection recipients) := by
  induction recipients with
  | nil => exact .pure ()
  | cons rcpt rest ih => exact sends_exchange _ (fun r => sends_throwIf _ _) ih

/-- **In every run `submit` sends a beginning of the commands of its message**, and all of them
when it returns. -/
theorem submit_sends (msg : SMTPMessage) (boundary : Str) :
    Sends (submitCommands msg boundary) (submit msg boundary) := by
  have hmessage : Sends [.message (msg.format boundary)] (do
      send (.message (msg.format boundary))
      let r ← waitForResponse
      throwIf (!positiveCompletion r.status) (.smtpError (str "Mail message rejection."))) := by
    refine Sends.bind (sends_send _) fun _ => ?_
    exact Sends.bind sends_waitForResponse fun r => sends_throwIf _ _
  have hdata : Sends [.data, .message (msg.format boundary)] (do
      send .data
      let r ← waitForResponse
      throwIf (!positiveIntermediate r.status) (.smtpError (str "Mail message rejection."))
      send (.message (msg.format boundary))
      let r ← waitForResponse
      throwIf (!positiveCompletion r.status) (.smtpError (str "Mail message rejection."))) :=
    sends_exchange .data (fun r => sends_throwIf _ _) hmessage
  refine sends_exchange _ (fun r => sends_throwIf _ _) ?_
  rw [List.append_assoc, List.append_assoc]
  refine (sends_submitRecipients _ _).bind fun _ => ?_
  refine (sends_submitRecipients _ _).bind fun _ => ?_
  exact (sends_submitRecipients _ _).bind fun _ => hdata

/-! ## Hidden recipients -/

/-- When `submit` returns, it has sent `RCPT TO` once for each recipient, the hidden ones with
them. -/
def AnnouncesBcc (msg : SMTPMessage) (boundary : Str) : Prop :=
  ∀ s s', submit msg boundary s = (.ok (), s') →
    commands s'.log = commands s.log ++ .mailFrom msg.sender.address ::
      (rcptCommands msg.recipients ++ rcptCommands msg.ccRecipients ++
        rcptCommands msg.bccRecipients ++ [.data, .message (msg.format boundary)])

theorem submit_announcesBcc (msg : SMTPMessage) (boundary : Str) : AnnouncesBcc msg boundary :=
  fun s s' h => ((submit_sends msg boundary (commands s.log)) s rfl).1 () s' h

/-- The text tells by its length whether there is a hidden recipient. -/
theorem format_bcc (msg : SMTPMessage) (bcc : List MailAddress) (boundary : Str) :
    ({ msg with bccRecipients := bcc }.format boundary).length =
      ({ msg with bccRecipients := [] }.format boundary).length +
        if bcc = [] then 0
        else (str "Bcc:" ++ SMTPMessage.formatAddressList msg.recipients ++ str "\r\n").length := by
  simp only [SMTPMessage.format, SMTPMessage.formatHeader, SMTPMessage.formatContent,
    SMTPMessage.formatSubject, List.length_append]
  by_cases h : bcc = []
  · simp [h]
  · simp only [h, if_false, if_true, List.length_append, List.length_nil]
    omega

/-- **The hidden recipients are announced to the server and are no part of the text**, if and only
if both messages have some or none of them has one. -/
theorem bcc_hidden_iff (msg : SMTPMessage) (bcc bcc' : List MailAddress) (boundary : Str) :
    ({ msg with bccRecipients := bcc }.format boundary =
          { msg with bccRecipients := bcc' }.format boundary ∧
        AnnouncesBcc { msg with bccRecipients := bcc } boundary ∧
        AnnouncesBcc { msg with bccRecipients := bcc' } boundary) ↔
      (bcc = [] ↔ bcc' = []) := by
  rw [and_iff_left ⟨submit_announcesBcc _ _, submit_announcesBcc _ _⟩]
  constructor
  · intro h
    have hlength := congrArg List.length h
    have hpos : 0 < (str "Bcc:" ++ SMTPMessage.formatAddressList msg.recipients ++
        str "\r\n").length := by simp [str]
    rw [format_bcc, format_bcc msg bcc'] at hlength
    by_cases hb : bcc = [] <;> by_cases hb' : bcc' = [] <;>
      simp only [hb, hb', if_true, if_false, true_iff, iff_true] at hlength ⊢ <;> omega
  · intro h
    simp only [SMTPMessage.format, SMTPMessage.formatHeader, SMTPMessage.formatContent,
      SMTPMessage.formatSubject, h]

/-- A mail to one recipient. -/
def plainMail : SMTPMessage := { recipients := [⟨str "a@x.org", []⟩] }

/-- One hidden recipient shows. -/
theorem bcc_shows :
    { plainMail with bccRecipients := [⟨str "b@x.org", []⟩] }.format [] ≠
      { plainMail with bccRecipients := [] }.format [] := by
  decide +kernel

end Wsrv.SMTPMailer
