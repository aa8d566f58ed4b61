import Wsrv.MailMessage
import Wsrv.Lib.MailSyntax

/-!
# The header of a message

What a reader of mail finds in the fields `SMTPMessage::format_header` writes.
Names and the subject are written as they are, and a blank stands between two
mailboxes where a comma belongs, so that it finds the message again only when no
list has a second mailbox and nothing has to be escaped (`intact_iff`).
-/

namespace Wsrv

open MailSyntax

/-- The fields of `format_header`, in their order. -/
inductive HeaderField
  | sentFrom | sender | replyTo | recipients | cc | bcc | subject
  deriving DecidableEq, Repr

namespace HeaderField

def all : List HeaderField := [sentFrom, sender, replyTo, recipients, cc, bcc, subject]

def name : HeaderField → Str
  | sentFrom => str "From"
  | sender => str "Sender"
  | replyTo => str "Reply-To"
  | recipients => str "To"
  | cc => str "Cc"
  | bcc => str "Bcc"
  | subject => str "Subject"

/-- The field of a name, in capital or small letters. -/
def ofName (s : Str) : Option HeaderField := all.find? fun k => k.name.map tolower == s.map tolower

theorem ofName_name (k : HeaderField) : ofName k.name = some k := by
  cases k <;> decide +kernel

theorem fieldName (k : HeaderField) : FieldName k.name := by
  cases k <;> decide +kernel

theorem mem_all (k : HeaderField) : k ∈ all := by
  cases k <;> decide

end HeaderField

/-- The name and the address. -/
def MailAddress.toPair (a : MailAddress) : Str × Str := (a.name, a.address)

theorem MailAddress.format_eq {a : MailAddress} (h : a.address ≠ []) :
    a.format = quotedMailbox a.toPair := by
  unfold MailAddress.format quotedMailbox MailAddress.toPair
  rw [if_neg fun hempty => h hempty.2]
  by_cases hname : a.name = []
  · simp [hname, h]
    rfl
  · simp [hname, h]
    rfl

namespace SMTPMessage

/-! ## What is written -/

theorem formatAddressList_eq {l : List MailAddress} (h : ∀ a ∈ l, a.address ≠ []) :
    formatAddressList l = blankList (l.map MailAddress.toPair) := by
  cases l with
  | nil => rfl
  | cons a l =>
    rw [List.forall_mem_cons] at h
    -- the list so far is not empty any more
    have hloop : ∀ res : Str, res ≠ [] →
        l.foldl (fun res address => (if res ≠ [] then res ++ str " " else res) ++ address.format)
          res = res ++
            if l.map MailAddress.toPair = [] then [] else 32 :: blankList (l.map MailAddress.toPair) := by
      intro res hres
      have hl := h.2
      clear h
      induction l generalizing res with
      | nil => simp
      | cons b l ih =>
        rw [List.forall_mem_cons] at hl
        rw [List.foldl_cons, if_pos hres, ih _ (by simp [hres]) hl.2, MailAddress.format_eq hl.1,
          List.map_cons, if_neg (List.cons_ne_nil _ _), blankList_cons]
        simp only [List.append_assoc, List.append_cancel_left_eq]
        rfl
    obtain ⟨c, u, hcons, -⟩ := head_quotedMailbox a.toPair []
    rw [List.append_nil] at hcons
    rw [formatAddressList, List.foldl_cons, if_neg (by simp), List.nil_append,
      MailAddress.format_eq h.1, hloop _ (by rw [hcons]; exact List.cons_ne_nil c u), List.map_cons,
      blankList_cons]

/-- Whether the field is written. -/
def written (m : SMTPMessage) : HeaderField → Bool
  | .sender => m.sender.address ≠ []
  | .replyTo => m.replyTo.address ≠ []
  | .cc => m.ccRecipients ≠ []
  | .bcc => m.bccRecipients ≠ []
  | _ => true

/-- What is written as the body of the field. -/
def fieldText (m : SMTPMessage) : HeaderField → Str
  | .sentFrom => m.sentFrom.format
  | .sender => m.sender.format
  | .replyTo => m.replyTo.format
  | .recipients => formatAddressList m.recipients
  | .cc => formatAddressList m.ccRecipients
  | .bcc => formatAddressList m.recipients
  | .subject => m.formatSubject

theorem formatHeader_eq (m : SMTPMessage) :
    m.formatHeader = fieldsText HeaderField.name m.fieldText (HeaderField.all.filter m.written) := by
  have hcons (k : HeaderField) (ks : List HeaderField) :
      fieldsText HeaderField.name m.fieldText ((k :: ks).filter m.written) =
        (if m.written k then k.name ++ (str ":" ++ (m.fieldText k ++ str "\r\n")) else []) ++
          fieldsText HeaderField.name m.fieldText (ks.filter m.written) := by
    have hmarks : str ":" = [58] ∧ str "\r\n" = [13, 10] := ⟨rfl, rfl⟩
    rw [List.filter_cons]
    split
    · rw [fieldsText_cons, hmarks.1, hmarks.2]
      simp
    · rfl
  rw [HeaderField.all, hcons, hcons, hcons, hcons, hcons, hcons, hcons, formatHeader]
  have hnil : fieldsText HeaderField.name m.fieldText (List.filter m.written []) = [] := rfl
  have hfrom : str "From:" = str "From" ++ str ":" := rfl
  have hsender : str "Sender:" = str "Sender" ++ str ":" := rfl
  have hreply : str "Reply-To:" = str "Reply-To" ++ str ":" := rfl
  have hto : str "To:" = str "To" ++ str ":" := rfl
  have hcc : str "Cc:" = str "Cc" ++ str ":" := rfl
  have hbcc : str "Bcc:" = str "Bcc" ++ str ":" := rfl
  have hsubject : str "Subject:" = str "Subject" ++ str ":" := rfl
  rw [hnil, hfrom, hsender, hreply, hto, hcc, hbcc, hsubject]
  simp only [written, decide_eq_true_eq, ne_eq, ite_not, if_true, HeaderField.name, fieldText,
    List.append_assoc, List.append_nil]

/-! ## What is read -/

/-- The addresses of the field; a sender without an address is none. -/
def addresses (m : SMTPMessage) : HeaderField → List MailAddress
  | .sentFrom => [m.sentFrom]
  | .sender => if m.sender.address = [] then [] else [m.sender]
  | .replyTo => if m.replyTo.address = [] then [] else [m.replyTo]
  | .recipients => m.recipients
  | .cc => m.ccRecipients
  | .bcc => m.bccRecipients
  | .subject => []

/-- The body is the one the message has for the field. -/
def Means (m : SMTPMessage) (body : Str) : HeaderField → Prop
  | .bcc => False
  | .subject => body = m.subject
  | k => readAddresses body = some ((m.addresses k).map MailAddress.toPair)

/-- How many of the field there are. -/
def expected (m : SMTPMessage) : HeaderField → Nat
  | .sentFrom | .recipients | .subject => 1
  | .bcc => 0
  | k => if m.addresses k = [] then 0 else 1

/-- The fields are those of the message. -/
structure Intact (m : SMTPMessage) (fields : List (Str × Str)) : Prop where
  means : ∀ f ∈ fields, ∃ k, HeaderField.ofName f.1 = some k ∧ m.Means f.2 k
  count : ∀ k, (fields.countP fun f => HeaderField.ofName f.1 = some k) = m.expected k

/-- The addresses of the message are well formed; the sender and the address for replies may be
left out. -/
structure WellAddressed (m : SMTPMessage) : Prop where
  sentFrom : AddrSpec m.sentFrom.address
  sender : m.sender.address ≠ [] → AddrSpec m.sender.address
  replyTo : m.replyTo.address ≠ [] → AddrSpec m.replyTo.address
  recipients : ∀ a ∈ m.recipients, AddrSpec a.address
  cc : ∀ a ∈ m.ccRecipients, AddrSpec a.address
  bcc : ∀ a ∈ m.bccRecipients, AddrSpec a.address

/-- No list has a second mailbox, there is no `Bcc`, and nothing has to be escaped. -/
structure Unescaped (m : SMTPMessage) : Prop where
  subject : Flat m.subject
  recipients : m.recipients.length ≤ 1
  cc : m.ccRecipients.length ≤ 1
  bcc : m.bccRecipients = []
  names : ∀ k, ∀ a ∈ m.addresses k, Flat a.name ∧ Quotable a.name

theorem WellAddressed.addresses {m : SMTPMessage} (h : m.WellAddressed) (k : HeaderField) :
    ∀ a ∈ m.addresses k, AddrSpec a.address := by
  cases k with
  | sentFrom => exact List.forall_mem_singleton.mpr h.sentFrom
  | sender =>
    by_cases hsender : m.sender.address = []
    · simp [SMTPMessage.addresses, hsender]
    · simpa [SMTPMessage.addresses, hsender] using h.sender hsender
  | replyTo =>
    by_cases hreply : m.replyTo.address = []
    · simp [SMTPMessage.addresses, hreply]
    · simpa [SMTPMessage.addresses, hreply] using h.replyTo hreply
  | recipients => exact h.recipients
  | cc => exact h.cc
  | bcc => exact h.bcc
  | subject => simp [SMTPMessage.addresses]

theorem addrSpec_ne_nil {a : Str} (h : AddrSpec a) : a ≠ [] := by
  rintro rfl
  exact absurd h.2 (by decide)

/-- The text of a field is its list of mailboxes. -/
theorem fieldText_eq {m : SMTPMessage} (h : m.WellAddressed) {k : HeaderField} (hk : m.written k)
    (hbcc : k ≠ .bcc) (hsubject : k ≠ .subject) :
    m.fieldText k = blankList ((m.addresses k).map MailAddress.toPair) := by
  rw [← formatAddressList_eq fun a ha => addrSpec_ne_nil (h.addresses k a ha)]
  cases k with
  | sentFrom => simp [fieldText, addresses, formatAddressList]
  | sender =>
    have hsender : m.sender.address ≠ [] := by simpa [written] using hk
    simp [fieldText, addresses, formatAddressList, hsender]
  | replyTo =>
    have hreply : m.replyTo.address ≠ [] := by simpa [written] using hk
    simp [fieldText, addresses, formatAddressList, hreply]
  | recipients => rfl
  | cc => rfl
  | bcc => exact absurd rfl hbcc
  | subject => exact absurd rfl hsubject

/-- What a field that is read as the message has it needs. -/
def FieldOk (m : SMTPMessage) : HeaderField → Prop
  | .bcc => False
  | .subject => Flat m.subject
  | k => (m.addresses k).length ≤ 1 ∧ ∀ a ∈ m.addresses k, Flat a.name ∧ Quotable a.name

/-- The field and the body of a list of mailboxes. -/
theorem means_list {m : SMTPMessage} {k : HeaderField} (hbcc : k ≠ .bcc) (hsubject : k ≠ .subject)
    (b : Str) :
    m.Means b k ↔ readAddresses b = some ((m.addresses k).map MailAddress.toPair) := by
  cases k <;> first | exact Iff.rfl | exact absurd rfl hbcc | exact absurd rfl hsubject

theorem fieldOk_list {m : SMTPMessage} {k : HeaderField} (hbcc : k ≠ .bcc) (hsubject : k ≠ .subject) :
    m.FieldOk k ↔
      (m.addresses k).length ≤ 1 ∧ ∀ a ∈ m.addresses k, Flat a.name ∧ Quotable a.name := by
  cases k <;> first | exact Iff.rfl | exact absurd rfl hbcc | exact absurd rfl hsubject

theorem fieldText_flat {m : SMTPMessage} (h : m.WellAddressed) {k : HeaderField}
    (hk : m.written k) (hok : m.FieldOk k) : Flat (m.fieldText k) := by
  by_cases hbcc : k = .bcc
  · rw [hbcc] at hok
    exact hok.elim
  by_cases hsubject : k = .subject
  · rw [hsubject] at hok ⊢
    exact hok
  rw [fieldText_eq h hk hbcc hsubject]
  have hnames := ((fieldOk_list hbcc hsubject).mp hok).2
  refine flat_blankList ?_ ?_
  · rw [List.forall_mem_map]
    exact fun a ha => (hnames a ha).1
  · rw [List.forall_mem_map]
    exact h.addresses k

/-- A body that is read as the message has it, whatever the line end in it is taken for. -/
theorem fieldOk_of_means {m : SMTPMessage} (h : m.WellAddressed) {k : HeaderField}
    (hk : m.written k) {s b rest : Str} (hs : folded s = false)
    (hread : readBody (m.fieldText k ++ 13 :: 10 :: s) = some (b, rest)) (hmeans : m.Means b k) :
    m.FieldOk k := by
  have hflat := flat_of_readBody hread
  by_cases hbcc : k = .bcc
  · rw [hbcc] at hmeans
    exact hmeans.elim
  by_cases hsubject : k = .subject
  · rw [hsubject] at hmeans ⊢
    have hbody : b = m.subject := hmeans
    rw [hbody] at hflat
    exact hflat
  rw [means_list hbcc hsubject] at hmeans
  rw [fieldOk_list hbcc hsubject]
  have haddr : ∀ a ∈ (m.addresses k).map MailAddress.toPair, AddrSpec a.2 := by
    rw [List.forall_mem_map]
    exact h.addresses k
  have hnames := readAddresses_flat hflat hmeans
  -- there is no line end in the names, and so the body is the text
  rw [fieldText_eq h hk hbcc hsubject, readBody_flat (flat_blankList hnames haddr) hs] at hread
  obtain ⟨rfl, -⟩ := Prod.mk.inj (Option.some.inj hread)
  obtain ⟨hlength, hquotable⟩ := blankList_need haddr hmeans
  rw [List.length_map] at hlength
  rw [List.forall_mem_map] at hnames hquotable
  exact ⟨hlength, fun a ha => ⟨hnames a ha, hquotable a ha⟩⟩

theorem means_of_fieldOk {m : SMTPMessage} (h : m.WellAddressed) {k : HeaderField}
    (hk : m.written k) (hok : m.FieldOk k) : m.Means (m.fieldText k) k := by
  by_cases hbcc : k = .bcc
  · rw [hbcc] at hok
    exact hok.elim
  by_cases hsubject : k = .subject
  · rw [hsubject]
    rfl
  rw [means_list hbcc hsubject, fieldText_eq h hk hbcc hsubject]
  obtain ⟨hlength, hnames⟩ := (fieldOk_list hbcc hsubject).mp hok
  refine readAddresses_blankList (by rwa [List.length_map]) ?_ ?_
  · rw [List.forall_mem_map]
    exact fun a ha => (hnames a ha).2
  · rw [List.forall_mem_map]
    exact h.addresses k

theorem unescaped_iff {m : SMTPMessage} :
    m.Unescaped ↔ ∀ k ∈ HeaderField.all.filter m.written, m.FieldOk k := by
  constructor
  · intro h k hk
    have hwritten := (List.mem_filter.mp hk).2
    cases k with
    | sentFrom => exact ⟨Nat.le_refl 1, h.names .sentFrom⟩
    | sender =>
      refine ⟨?_, h.names .sender⟩
      unfold addresses
      dsimp only
      split <;> simp
    | replyTo =>
      refine ⟨?_, h.names .replyTo⟩
      unfold addresses
      dsimp only
      split <;> simp
    | recipients => exact ⟨h.recipients, h.names .recipients⟩
    | cc => exact ⟨h.cc, h.names .cc⟩
    | bcc => simp [written, h.bcc] at hwritten
    | subject => exact h.subject
  · intro h
    have hfield (k : HeaderField) (hk : m.written k = true) : m.FieldOk k :=
      h k (List.mem_filter.mpr ⟨k.mem_all, hk⟩)
    -- a field that is left out has no addresses
    have hcc : m.ccRecipients = [] ∨ m.FieldOk .cc := by
      by_cases hempty : m.ccRecipients = []
      · exact .inl hempty
      · exact .inr (hfield .cc (by simp [written, hempty]))
    have hbcc : m.bccRecipients = [] := by
      by_contra hbcc
      exact hfield .bcc (by simp [written, hbcc])
    refine ⟨hfield .subject rfl, (hfield .recipients rfl).1, ?_, hbcc, ?_⟩
    · rcases hcc with hempty | hok
      · simp [hempty]
      · exact hok.1
    · intro k
      cases k with
      | sentFrom => exact (hfield .sentFrom rfl).2
      | sender =>
        by_cases hempty : m.sender.address = []
        · simp [addresses, hempty]
        · exact (hfield .sender (by simp [written, hempty])).2
      | replyTo =>
        by_cases hempty : m.replyTo.address = []
        · simp [addresses, hempty]
        · exact (hfield .replyTo (by simp [written, hempty])).2
      | recipients => exact (hfield .recipients rfl).2
      | cc =>
        rcases hcc with hempty | hok
        · simp [addresses, hempty]
        · exact hok.2
      | bcc => simp [addresses, hbcc]
      | subject => simp [addresses]

theorem count_written {m : SMTPMessage} (hbcc : m.bccRecipients = []) (k : HeaderField) :
    (HeaderField.all.filter m.written).countP (· = k) = m.expected k := by
  rw [List.countP_filter]
  cases k with
  | sender => by_cases h : m.sender.address = [] <;> simp [HeaderField.all, written, expected, addresses, h]
  | replyTo => by_cases h : m.replyTo.address = [] <;> simp [HeaderField.all, written, expected, addresses, h]
  | cc => by_cases h : m.ccRecipients = [] <;> simp [HeaderField.all, written, expected, addresses, h]
  | bcc => simp [HeaderField.all, written, expected, hbcc]
  | sentFrom => simp [HeaderField.all, written, expected]
  | recipients => simp [HeaderField.all, written, expected]
  | subject => simp [HeaderField.all, written, expected]

/-- A message that a reader finds again has nothing to escape. -/
theorem unescaped_of_intact {m : SMTPMessage} (h : m.WellAddressed) {fields : List (Str × Str)}
    (hread : readFields m.formatHeader = some fields) (hintact : m.Intact fields) :
    m.Unescaped := by
  rw [formatHeader_eq] at hread
  refine unescaped_iff.mpr (fields_ok
    (fun name body => ∃ k, HeaderField.ofName name = some k ∧ m.Means body k)
    (fun k _ => k.fieldName) ?_ ?_ hread hintact.means)
  · exact fun k hk hok => fieldText_flat h (List.mem_filter.mp hk).2 hok
  · rintro k hk s b rest hs hbody ⟨k', hk', hmeans⟩
    rw [HeaderField.ofName_name] at hk'
    cases hk'
    exact fieldOk_of_means h (List.mem_filter.mp hk).2 hs hbody hmeans

/-- **The header of a message**: a reader finds the subject and the addresses of the message in it
exactly when no list has a second mailbox, there is no `Bcc`, and nothing has to be escaped. -/
theorem intact_iff {m : SMTPMessage} (h : m.WellAddressed) :
    (∃ fields, readFields m.formatHeader = some fields ∧ m.Intact fields) ↔ m.Unescaped := by
  constructor
  · rintro ⟨fields, hread, hintact⟩
    exact unescaped_of_intact h hread hintact
  · intro hunescaped
    have hok := unescaped_iff.mp hunescaped
    rw [formatHeader_eq]
    refine ⟨_, readFields_flat (fun k _ => k.fieldName) fun k hk =>
      fieldText_flat h (List.mem_filter.mp hk).2 (hok k hk), ?_, ?_⟩
    · rw [List.forall_mem_map]
      intro k hk
      exact ⟨k, k.ofName_name, means_of_fieldOk h (List.mem_filter.mp hk).2 (hok k hk)⟩
    · intro k
      rw [List.countP_map, ← count_written hunescaped.bcc k]
      refine List.countP_congr fun k' _ => ?_
      simp [HeaderField.ofName_name]

/-- A mail with a name and without a sender of its own. -/
def greeting : SMTPMessage where
  subject := str "Hello"
  sentFrom := { address := str "ann@example.org", name := str "Ann" }
  recipients := [{ address := str "bob@example.org" }]

theorem greeting_intact : greeting.WellAddressed ∧ greeting.Unescaped ∧
    ∃ fields, readFields greeting.formatHeader = some fields ∧ greeting.Intact fields := by
  have hwell : greeting.WellAddressed :=
    ⟨by decide +kernel, by decide, by decide, by decide +kernel, by decide, by decide⟩
  have hunescaped : greeting.Unescaped := by
    refine ⟨by decide +kernel, by decide, by decide, rfl, ?_⟩
    intro k
    cases k <;> decide +kernel
  exact ⟨hwell, hunescaped, (intact_iff hwell).mpr hunescaped⟩

/-- The same mail to two: `To:<bob@example.org> <eve@example.org>` is not a list of addresses. -/
def invitation : SMTPMessage :=
  { greeting with
    recipients := [{ address := str "bob@example.org" }, { address := str "eve@example.org" }] }

theorem invitation_lost : invitation.WellAddressed ∧
    ¬ ∃ fields, readFields invitation.formatHeader = some fields ∧ invitation.Intact fields := by
  have hwell : invitation.WellAddressed :=
    ⟨by decide +kernel, by decide, by decide, by decide +kernel, by decide, by decide⟩
  refine ⟨hwell, ?_⟩
  rintro ⟨fields, hread, hintact⟩
  exact absurd (unescaped_of_intact hwell hread hintact).recipients (by decide)

end SMTPMessage

end Wsrv
