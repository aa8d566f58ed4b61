import Wsrv.Lib.EcmaRegex

/-!
# The syntax of ECMAScript regular expressions

`compile` reads the text of an expression byte by byte: `Mode` is the token that
is being read, and a `Frame` is what has been read since a parenthesis was
opened.  It is the grammar of ECMAScript with the named classes `[:name:]` of
C++, for the bytes of the C locale.  The collating symbols `[.x.]` and the
equivalence classes `[=x=]` of C++ are not read: an expression with one of them
in a class does not compile here.
-/

namespace Ecma

abbrev Byte := UInt8

/-- The bytes of a literal. -/
def bytes (s : String) : List Byte := s.toList.map Char.toUInt8

/-! ## Classes of bytes -/

def isDigit (c : Byte) : Bool := '0'.toUInt8 ≤ c && c ≤ '9'.toUInt8

def isUpper (c : Byte) : Bool := 'A'.toUInt8 ≤ c && c ≤ 'Z'.toUInt8

def isLower (c : Byte) : Bool := 'a'.toUInt8 ≤ c && c ≤ 'z'.toUInt8

def isAlpha (c : Byte) : Bool := isUpper c || isLower c

def isAlnum (c : Byte) : Bool := isAlpha c || isDigit c

def isWord (c : Byte) : Bool := isAlnum c || c == '_'.toUInt8

def isSpace (c : Byte) : Bool := c == ' '.toUInt8 || (9 ≤ c && c ≤ 13)

def isPrint (c : Byte) : Bool := 32 ≤ c && c ≤ 126

def isXDigit (c : Byte) : Bool :=
  isDigit c || ('A'.toUInt8 ≤ c && c ≤ 'F'.toUInt8) || ('a'.toUInt8 ≤ c && c ≤ 'f'.toUInt8)

def digitValue (c : Byte) : Nat :=
  if isDigit c then (c - '0'.toUInt8).toNat
  else if isUpper c then (c - 'A'.toUInt8).toNat + 10
  else (c - 'a'.toUInt8).toNat + 10

/-- `.` -/
def anyChar (c : Byte) : Bool := c != '\n'.toUInt8 && c != '\r'.toUInt8

/-- The names in `[:name:]`. -/
def namedClasses : List (String × (Byte → Bool)) :=
  [("alnum", isAlnum), ("alpha", isAlpha), ("blank", fun c => c == ' '.toUInt8 || c == '\t'.toUInt8),
    ("cntrl", fun c => c < 32 || c == 127), ("digit", isDigit), ("d", isDigit),
    ("graph", fun c => isPrint c && c != ' '.toUInt8), ("lower", isLower), ("print", isPrint),
    ("punct", fun c => isPrint c && c != ' '.toUInt8 && !isAlnum c), ("space", isSpace),
    ("s", isSpace), ("upper", isUpper), ("xdigit", isXDigit), ("w", isWord)]

def namedClass (name : List Byte) : Option (Byte → Bool) :=
  (namedClasses.find? fun e => bytes e.1 == name).map (·.2)

/-! ## Escapes -/

/-- What an escape comes to. -/
inductive Escape
  | char (c : Byte)
  | set (p : Byte → Bool)
  | bound (positive : Bool)
  | backref (n : Nat)
  /-- `\c`, and `\x` or `\u` with the number of digits that follow. -/
  | control
  | hex (digits : Nat)

/-- The byte behind a backslash. -/
def escapeOf (inClass : Bool) (c : Byte) : Escape :=
  if c = 'b'.toUInt8 then if inClass then .char 8 else .bound true
  else if c = 'B'.toUInt8 ∧ ¬ inClass then .bound false
  else if c = 'd'.toUInt8 then .set isDigit
  else if c = 'D'.toUInt8 then .set fun c => !isDigit c
  else if c = 's'.toUInt8 then .set isSpace
  else if c = 'S'.toUInt8 then .set fun c => !isSpace c
  else if c = 'w'.toUInt8 then .set isWord
  else if c = 'W'.toUInt8 then .set fun c => !isWord c
  else if c = 'f'.toUInt8 then .char 12
  else if c = 'n'.toUInt8 then .char 10
  else if c = 'r'.toUInt8 then .char 13
  else if c = 't'.toUInt8 then .char 9
  else if c = 'v'.toUInt8 then .char 11
  else if c = '0'.toUInt8 then .char 0
  else if c = 'c'.toUInt8 then .control
  else if c = 'x'.toUInt8 then .hex 2
  else if c = 'u'.toUInt8 then .hex 4
  else if isDigit c ∧ ¬ inClass then .backref (digitValue c)
  else .char c

/-! ## Character classes -/

/-- The last atom of a class, from which a range may go on. -/
inductive Pending
  | nothing
  | single (c : Byte)
  | set

inductive ClassMode
  | start
  | plain
  | escape
  | control
  | hex (left value : Nat)
  /-- Behind `[` in a class. -/
  | bracket
  | name (read : List Byte)
  /-- Behind `[:name:`. -/
  | nameEnd (read : List Byte)

/-- A class `[...]` as far as it has been read; `dash` says that a `-` follows the last atom. -/
structure ClassScan where
  mode : ClassMode
  negated : Bool
  accepts : Byte → Bool
  pending : Pending
  dash : Bool

namespace ClassScan

def start : ClassScan := ⟨.start, false, fun _ => false, .nothing, false⟩

/-- Nothing is pending any more. -/
def settle (k : ClassScan) : ClassScan :=
  let accepts c :=
    k.accepts c || (match k.pending with | .single d => c == d | _ => false) ||
      (k.dash && c == '-'.toUInt8)
  { k with accepts := accepts, pending := .nothing, dash := false }

def single (k : ClassScan) (c : Byte) : Option ClassScan :=
  match k.dash, k.pending with
  | true, .single lo =>
    if c < lo then none
    else some { k with
      mode := .plain, accepts := fun d => k.accepts d || (lo ≤ d && d ≤ c)
      pending := .nothing, dash := false }
  | true, _ => none
  | false, _ => some { k.settle with mode := .plain, pending := .single c }

def set (k : ClassScan) (p : Byte → Bool) : Option ClassScan :=
  if k.dash then none
  else some { k.settle with
    mode := .plain, accepts := fun c => k.settle.accepts c || p c, pending := .set }

/-- A byte that no escape or name takes. -/
def plainStep (k : ClassScan) (c : Byte) : Option ClassScan :=
  if c = '\\'.toUInt8 then some { k with mode := .escape }
  else if c = '['.toUInt8 then some { k with mode := .bracket }
  else if c = '-'.toUInt8 ∧ !k.dash then
    match k.pending with
    | .nothing => k.single c
    | _ => some { k with mode := .plain, dash := true }
  else k.single c

/-- One byte, where it is not the bracket that ends the class. -/
def step (k : ClassScan) (c : Byte) : Option ClassScan :=
  match k.mode with
  | .start =>
    if c = '^'.toUInt8 then some { k with mode := .plain, negated := true } else k.plainStep c
  | .plain => k.plainStep c
  | .escape =>
    match escapeOf true c with
    | .char d => k.single d
    | .set p => k.set p
    | .control => some { k with mode := .control }
    | .hex digits => some { k with mode := .hex digits 0 }
    | .bound _ | .backref _ => none
  | .control => if isAlpha c then k.single (c % 32) else none
  | .hex left value =>
    if !isXDigit c then none
    else
      let value := 16 * value + digitValue c
      if left ≤ 1 then k.single (UInt8.ofNat value) else some { k with mode := .hex (left - 1) value }
  | .bracket =>
    if c = ':'.toUInt8 then some { k with mode := .name [] }
    else if c = '.'.toUInt8 ∨ c = '='.toUInt8 then none
    else (k.single '['.toUInt8).bind fun k => k.plainStep c
  | .name read =>
    if c = ':'.toUInt8 then some { k with mode := .nameEnd read }
    else some { k with mode := .name (read ++ [c]) }
  | .nameEnd read => if c = ']'.toUInt8 then (namedClass read).bind k.set else none

/-- The class that the bracket `]` ends here, if it ends one. -/
def close (k : ClassScan) : Option ClassScan :=
  match k.mode with
  | .start | .plain => some k
  | .bracket => k.single '['.toUInt8
  | _ => none

/-- The bytes in the class. -/
def toClass (k : ClassScan) (c : Byte) : Bool := k.settle.accepts c != k.negated

end ClassScan

/-! ## Expressions -/

/-- What opened a parenthesis; the whole expression is in none. -/
inductive Opener
  | top
  | capture (i : Nat)
  | plain
  | look (positive : Bool)
  deriving DecidableEq

/-- What has been read behind a parenthesis: the alternatives before this one, and the terms of
this one, of which `last` can still be repeated. -/
structure Frame where
  opener : Opener
  alts : Option (Node Byte)
  terms : Node Byte
  last : Option (Node Byte)

namespace Frame

def fresh (opener : Opener) : Frame := ⟨opener, none, .empty, none⟩

/-- The terms of this alternative. -/
def node (f : Frame) : Node Byte :=
  match f.last with
  | none => f.terms
  | some t => .seq f.terms t

/-- An atom, which a quantifier may follow. -/
def atom (f : Frame) (t : Node Byte) : Frame := { f with terms := f.node, last := some t }

/-- An assertion, or a repetition: no quantifier may follow. -/
def done (f : Frame) (t : Node Byte) : Frame := { f with terms := .seq f.node t, last := none }

def disjunction (f : Frame) : Node Byte :=
  match f.alts with
  | none => f.node
  | some r => .alt r f.node

/-- Behind `|`. -/
def nextAlt (f : Frame) : Frame :=
  { f with alts := some f.disjunction, terms := .empty, last := none }

/-- The last term was `t` and is repeated. -/
def repeated (f : Frame) (lo : Nat) (hi : Option Nat) (greedy : Bool) (t : Node Byte) : Frame :=
  { f with terms := .seq f.terms (.rep lo hi greedy t), last := none }

def quantify (f : Frame) (lo : Nat) (hi : Option Nat) (greedy : Bool) : Option Frame :=
  f.last.map (f.repeated lo hi greedy)

/-- Behind the parenthesis that closes `inner`. -/
def close (f : Frame) (inner : Frame) : Option Frame :=
  match inner.opener with
  | .top => none
  | .capture i => some (f.atom (.group i inner.disjunction))
  | .plain => some (f.atom inner.disjunction)
  | .look positive => some (f.done (.look positive inner.disjunction))

end Frame

/-- What a byte begins where no token is being read. -/
inductive Token
  | backslash | parenOpen | parenClose | bracket | brace | bar | lineBegin | lineEnd
  | repetition (lo : Nat) (hi : Option Nat)
  | char (p : Byte → Bool)

def tokenOf (c : Byte) : Token :=
  if c = '\\'.toUInt8 then .backslash
  else if c = '('.toUInt8 then .parenOpen
  else if c = ')'.toUInt8 then .parenClose
  else if c = '['.toUInt8 then .bracket
  else if c = '{'.toUInt8 then .brace
  else if c = '*'.toUInt8 then .repetition 0 none
  else if c = '+'.toUInt8 then .repetition 1 none
  else if c = '?'.toUInt8 then .repetition 0 (some 1)
  else if c = '|'.toUInt8 then .bar
  else if c = '^'.toUInt8 then .lineBegin
  else if c = '$'.toUInt8 then .lineEnd
  else if c = '.'.toUInt8 then .char anyChar
  else .char (· == c)

inductive Mode
  | normal
  | paren
  | parenQuery
  /-- Behind a quantifier, which `?` makes reluctant. -/
  | quantifier (lo : Nat) (hi : Option Nat)
  | braceLo (read : Option Nat)
  | braceHi (lo : Nat) (read : Option Nat)
  | escape
  | control
  | hex (left value : Nat)
  | backref (n : Nat)
  | inClass (k : ClassScan)

/-- The text so far: the token at hand, the innermost frame and those around it, the number of
groups that were opened, and the largest number of a group that is referred to. -/
structure Scan where
  mode : Mode
  frame : Frame
  outer : List Frame
  groups : Nat
  maxRef : Nat

namespace Scan

def start : Scan := ⟨.normal, .fresh .top, [], 0, 0⟩

def atom (st : Scan) (t : Node Byte) : Scan := { st with mode := .normal, frame := st.frame.atom t }

def done (st : Scan) (t : Node Byte) : Scan := { st with mode := .normal, frame := st.frame.done t }

def opened (st : Scan) (opener : Opener) : Scan :=
  { st with mode := .normal, frame := .fresh opener, outer := st.frame :: st.outer }

def quantify (st : Scan) (lo : Nat) (hi : Option Nat) (greedy : Bool) : Option Scan :=
  (st.frame.quantify lo hi greedy).map fun f => { st with mode := .normal, frame := f }

/-- The token at hand ends here. -/
def settle (st : Scan) : Option Scan :=
  match st.mode with
  | .normal => some st
  | .paren => some { st.opened (.capture (st.groups + 1)) with groups := st.groups + 1 }
  | .quantifier lo hi => st.quantify lo hi true
  | .backref n => some { st.atom (.back n) with maxRef := max n st.maxRef }
  | _ => none

/-- A quantifier is only read behind an atom. -/
def quantifier (st : Scan) (mode : Mode) : Option Scan :=
  st.frame.last.map fun _ => { st with mode := mode }

/-- A byte that begins a token. -/
def normalStep (st : Scan) (c : Byte) : Option Scan :=
  match tokenOf c with
  | .backslash => some { st with mode := .escape }
  | .parenOpen => some { st with mode := .paren }
  | .parenClose =>
    match st.outer with
    | [] => none
    | f :: outer => (f.close st.frame).map fun f => { st with mode := .normal, frame := f, outer := outer }
  | .bracket => some { st with mode := .inClass .start }
  | .brace => st.quantifier (.braceLo none)
  | .repetition lo hi => st.quantifier (.quantifier lo hi)
  | .bar => some { st with mode := .normal, frame := st.frame.nextAlt }
  | .lineBegin => some (st.done .lineBegin)
  | .lineEnd => some (st.done .lineEnd)
  | .char p => some (st.atom (.char p))

/-- One more digit of a number. -/
def moreDigits (read : Option Nat) (c : Byte) : Option Nat := some (10 * read.getD 0 + digitValue c)

def step (st : Scan) (c : Byte) : Option Scan :=
  match st.mode with
  | .normal => st.normalStep c
  | .paren =>
    if c = '?'.toUInt8 then some { st with mode := .parenQuery }
    else st.settle.bind fun st => st.normalStep c
  | .parenQuery =>
    if c = ':'.toUInt8 then some (st.opened .plain)
    else if c = '='.toUInt8 then some (st.opened (.look true))
    else if c = '!'.toUInt8 then some (st.opened (.look false))
    else none
  | .quantifier lo hi =>
    if c = '?'.toUInt8 then st.quantify lo hi false
    else st.settle.bind fun st => st.normalStep c
  | .braceLo read =>
    if isDigit c then some { st with mode := .braceLo (moreDigits read c) }
    else match read with
      | none => none
      | some lo =>
        if c = ','.toUInt8 then some { st with mode := .braceHi lo none }
        else if c = '}'.toUInt8 then some { st with mode := .quantifier lo (some lo) }
        else none
  | .braceHi lo read =>
    if isDigit c then some { st with mode := .braceHi lo (moreDigits read c) }
    else if c = '}'.toUInt8 ∧ read.all (lo ≤ ·) then some { st with mode := .quantifier lo read }
    else none
  | .escape =>
    match escapeOf false c with
    | .char d => some (st.atom (.char (· == d)))
    | .set p => some (st.atom (.char p))
    | .bound positive => some (st.done (.bound isWord positive))
    | .backref n => some { st with mode := .backref n }
    | .control => some { st with mode := .control }
    | .hex digits => some { st with mode := .hex digits 0 }
  | .control => if isAlpha c then some (st.atom (.char (· == c % 32))) else none
  | .hex left value =>
    if !isXDigit c then none
    else
      let value := 16 * value + digitValue c
      if left ≤ 1 then some (st.atom (.char (· == UInt8.ofNat value)))
      else some { st with mode := .hex (left - 1) value }
  | .backref n =>
    if isDigit c then some { st with mode := .backref (10 * n + digitValue c) }
    else st.settle.bind fun st => st.normalStep c
  | .inClass k =>
    match (if c = ']'.toUInt8 then k.close else none) with
    | some k => some (st.atom (.char k.toClass))
    | none => (k.step c).map fun k => { st with mode := .inClass k }

def run (text : List Byte) (st : Scan) : Option Scan := text.foldlM step st

/-- The expression that ends here. -/
def result (st : Scan) : Option (Node Byte) :=
  if st.outer = [] ∧ st.maxRef ≤ st.groups then some st.frame.disjunction else none

end Scan

/-- The state behind the text of an expression. -/
def scan (text : List Byte) : Option Scan := (Scan.start.run text).bind Scan.settle

/-- The expression with this text, or `none` where it is malformed. -/
def compile (text : List Byte) : Option (Node Byte) := (scan text).bind Scan.result

/-- How many groups an expression opens. -/
def groupCount (text : List Byte) : Nat := (scan text).elim 0 Scan.groups

/-! ## An expression inside of another

An expression that is well formed by itself is read in the same way between two
parentheses of another one, up to the numbers of its groups. -/

/-- What stands for the frame without a parenthesis where it is opened by `o` behind `n` groups. -/
def Opener.embed (o : Opener) (n : Nat) : Opener → Opener
  | .top => o
  | .capture i => .capture (i + n)
  | .plain => .plain
  | .look positive => .look positive

namespace Frame

variable {f inner : Frame} {o : Opener} {n : Nat}

def embed (o : Opener) (n : Nat) (f : Frame) : Frame :=
  ⟨o.embed n f.opener, f.alts.map (·.shift n), f.terms.shift n, f.last.map (·.shift n)⟩

@[simp] theorem node_embed : (f.embed o n).node = f.node.shift n := by
  unfold node embed
  cases f.last <;> rfl

@[simp] theorem disjunction_embed : (f.embed o n).disjunction = f.disjunction.shift n := by
  have halts : (f.embed o n).alts = f.alts.map (·.shift n) := rfl
  unfold disjunction
  rw [halts, node_embed]
  cases f.alts <;> rfl

theorem atom_embed (t : Node Byte) : (f.atom t).embed o n = (f.embed o n).atom (t.shift n) := by
  simp [atom, embed, ← node_embed (o := o)]

theorem done_embed (t : Node Byte) : (f.done t).embed o n = (f.embed o n).done (t.shift n) := by
  simp [done, embed, Node.shift, ← node_embed (o := o)]

theorem nextAlt_embed : f.nextAlt.embed o n = (f.embed o n).nextAlt := by
  simp [nextAlt, embed, Node.shift, ← disjunction_embed (o := o)]

theorem quantify_embed (lo : Nat) (hi : Option Nat) (greedy : Bool) :
    (f.embed o n).quantify lo hi greedy = (f.quantify lo hi greedy).map (embed o n) := by
  unfold quantify
  rw [Option.map_map]
  cases hf : f.last <;> simp [repeated, embed, hf, Node.shift]

theorem close_embed {f' : Frame} (h : f.close inner = some f') :
    (f.embed o n).close (inner.embed o n) = some (f'.embed o n) := by
  have hopener : (inner.embed o n).opener = o.embed n inner.opener := rfl
  unfold close at h ⊢
  rw [hopener, disjunction_embed]
  cases hi : inner.opener with
  | top => simp [hi] at h
  | capture i =>
    obtain rfl := Option.some.inj (hi ▸ h)
    rw [atom_embed]
    rfl
  | plain =>
    obtain rfl := Option.some.inj (hi ▸ h)
    rw [atom_embed]
    rfl
  | look positive =>
    obtain rfl := Option.some.inj (hi ▸ h)
    rw [done_embed]
    rfl

end Frame

namespace Scan

variable {st st' : Scan} {o : Opener} {n m : Nat} {outer : List Frame}

/-- The state inside of a parenthesis that `o` has opened, behind `n` groups. -/
def embed (o : Opener) (outer : List Frame) (n m : Nat) (st : Scan) : Scan :=
  ⟨st.mode, st.frame.embed o n, st.outer.map (Frame.embed o n) ++ outer, st.groups + n,
    max st.maxRef m⟩

theorem atom_embed (t : Node Byte) :
    (st.atom t).embed o outer n m = (st.embed o outer n m).atom (t.shift n) := by
  simp [atom, embed, Frame.atom_embed]

theorem done_embed (t : Node Byte) :
    (st.done t).embed o outer n m = (st.embed o outer n m).done (t.shift n) := by
  simp [done, embed, Frame.done_embed]

theorem quantify_embed (lo : Nat) (hi : Option Nat) (greedy : Bool) :
    (st.embed o outer n m).quantify lo hi greedy =
      (st.quantify lo hi greedy).map (embed o outer n m) := by
  have hframe : (st.embed o outer n m).frame = st.frame.embed o n := rfl
  unfold quantify
  rw [hframe, Frame.quantify_embed, Option.map_map, Option.map_map]
  rfl

theorem quantifier_embed (mode : Mode) :
    (st.embed o outer n m).quantifier mode = (st.quantifier mode).map (embed o outer n m) := by
  have hlast : (st.embed o outer n m).frame.last = st.frame.last.map (·.shift n) := rfl
  unfold quantifier
  rw [hlast, Option.map_map, Option.map_map]
  rfl

theorem settle_embed (h : st.settle = some st') :
    (st.embed o outer n m).settle = some (st'.embed o outer n m) := by
  have hmode : (st.embed o outer n m).mode = st.mode := rfl
  unfold settle at h ⊢
  rw [hmode]
  cases hm : st.mode <;> simp only [hm, reduceCtorEq] at h ⊢
  case normal =>
    obtain rfl := Option.some.inj h
    rfl
  case paren =>
    obtain rfl := Option.some.inj h
    simp [embed, opened, Frame.embed, Frame.fresh, Opener.embed, Node.shift, Nat.add_right_comm]
  case quantifier lo hi =>
    rw [quantify_embed, h]
    rfl
  case backref k =>
    obtain rfl := Option.some.inj h
    have hatom := @atom_embed st o n m outer (.back k)
    simp [embed, atom, Nat.max_assoc] at hatom ⊢
    exact hatom.symm

theorem normalStep_embed {c : Byte} (h : st.normalStep c = some st') :
    (st.embed o outer n m).normalStep c = some (st'.embed o outer n m) := by
  unfold normalStep at h ⊢
  cases ht : tokenOf c <;> simp only [ht] at h ⊢
  case parenClose =>
    cases hout : st.outer with
    | nil => simp [hout] at h
    | cons f rest =>
      simp only [hout, Option.map_eq_some_iff] at h
      obtain ⟨f', hclose, rfl⟩ := h
      simp [embed, hout, Frame.close_embed hclose]
  case brace => rw [quantifier_embed, h, Option.map_some]
  case repetition lo hi => rw [quantifier_embed, h, Option.map_some]
  case bar =>
    obtain rfl := Option.some.inj h
    simp [embed, Frame.nextAlt_embed]
  case lineBegin =>
    obtain rfl := Option.some.inj h
    rw [done_embed]
    rfl
  case lineEnd =>
    obtain rfl := Option.some.inj h
    rw [done_embed]
    rfl
  case char p =>
    obtain rfl := Option.some.inj h
    rw [atom_embed]
    rfl
  all_goals
    obtain rfl := Option.some.inj h
    rfl

/-- The token at hand ends before this byte, or the byte goes on with it. -/
theorem settled_step_embed {c : Byte}
    (h : (st.settle.bind fun st => st.normalStep c) = some st') :
    ((st.embed o outer n m).settle.bind fun st => st.normalStep c) =
      some (st'.embed o outer n m) := by
  obtain ⟨s, hs, hstep⟩ := Option.bind_eq_some_iff.mp h
  rw [settle_embed hs, Option.bind_some, normalStep_embed hstep]

theorem step_embed {c : Byte} (h : st.step c = some st') :
    (st.embed o outer n m).step c = some (st'.embed o outer n m) := by
  have hmode : (st.embed o outer n m).mode = st.mode := rfl
  have hchar (p : Byte → Bool) : (st.atom (.char p)).embed o outer n m =
      (st.embed o outer n m).atom (.char p) := atom_embed _
  unfold step at h ⊢
  rw [hmode]
  cases hm : st.mode <;> simp only [hm] at h ⊢
  case normal => exact normalStep_embed h
  case paren =>
    split_ifs at h ⊢ with hc
    · obtain rfl := Option.some.inj h
      rfl
    · exact settled_step_embed h
  case parenQuery =>
    split_ifs at h ⊢
    all_goals
      obtain rfl := Option.some.inj h
      rfl
  case quantifier lo hi =>
    split_ifs at h ⊢
    · rw [quantify_embed, h, Option.map_some]
    · exact settled_step_embed h
  case braceLo read =>
    cases read with
    | none | some lo =>
      simp only at h ⊢
      split_ifs at h ⊢
      all_goals
        obtain rfl := Option.some.inj h
        rfl
  case braceHi lo read =>
    split_ifs at h ⊢
    all_goals
      obtain rfl := Option.some.inj h
      rfl
  case escape =>
    cases he : escapeOf false c <;> simp only [he] at h ⊢ <;> obtain rfl := Option.some.inj h
    case char d => rw [hchar]
    case set p => rw [hchar]
    case bound positive =>
      rw [done_embed]
      rfl
    all_goals rfl
  case control =>
    split_ifs at h ⊢
    obtain rfl := Option.some.inj h
    rw [hchar]
  case hex left value =>
    split_ifs at h ⊢
    · obtain rfl := Option.some.inj h
      rw [hchar]
    · obtain rfl := Option.some.inj h
      rfl
  case backref k =>
    split_ifs at h ⊢
    · obtain rfl := Option.some.inj h
      rfl
    · exact settled_step_embed h
  case inClass k =>
    split at h
    · obtain rfl := Option.some.inj h
      rw [hchar]
    · obtain ⟨k', hk, rfl⟩ := Option.map_eq_some_iff.mp h
      rw [hk]
      rfl

theorem run_embed {text : List Byte} (h : st.run text = some st') :
    (st.embed o outer n m).run text = some (st'.embed o outer n m) := by
  induction text generalizing st with
  | nil =>
    obtain rfl := Option.some.inj h
    rfl
  | cons c text ih =>
    rw [run, List.foldlM_cons] at h ⊢
    obtain ⟨s, hs, hrest⟩ := Option.bind_eq_some_iff.mp h
    rw [Option.bind_eq_bind, step_embed hs]
    exact ih hrest

/-- What opened the outermost frame. -/
def bottomOf (f : Frame) : List Frame → Opener
  | [] => f.opener
  | g :: outer => bottomOf g outer

def bottom (st : Scan) : Opener := bottomOf st.frame st.outer

theorem bottomOf_congr {f g : Frame} (h : f.opener = g.opener) (outer : List Frame) :
    bottomOf f outer = bottomOf g outer := by
  cases outer with
  | nil => exact h
  | cons _ _ => rfl

theorem bottom_congr (hframe : st'.frame.opener = st.frame.opener) (houter : st'.outer = st.outer) :
    st'.bottom = st.bottom := by
  unfold bottom
  rw [houter, bottomOf_congr hframe]

theorem quantify_bottom {lo : Nat} {hi : Option Nat} {greedy : Bool}
    (h : st.quantify lo hi greedy = some st') : st'.bottom = st.bottom := by
  obtain ⟨f, hf, rfl⟩ := Option.map_eq_some_iff.mp h
  obtain ⟨t, -, rfl⟩ := Option.map_eq_some_iff.mp hf
  exact bottom_congr rfl rfl

theorem quantifier_bottom {mode : Mode} (h : st.quantifier mode = some st') :
    st'.bottom = st.bottom := by
  obtain ⟨t, -, rfl⟩ := Option.map_eq_some_iff.mp h
  rfl

theorem settle_bottom (h : st.settle = some st') : st'.bottom = st.bottom := by
  unfold settle at h
  cases hm : st.mode <;> simp only [hm, reduceCtorEq] at h
  case quantifier lo hi => exact quantify_bottom h
  all_goals
    obtain rfl := Option.some.inj h
    first
    | rfl
    | exact bottom_congr rfl rfl

theorem close_opener {f inner f' : Frame} (h : f.close inner = some f') :
    f'.opener = f.opener := by
  unfold Frame.close at h
  cases hi : inner.opener <;> simp only [hi, reduceCtorEq, Option.some.injEq] at h <;> subst h <;> rfl

theorem normalStep_bottom {c : Byte} (h : st.normalStep c = some st') :
    st'.bottom = st.bottom := by
  unfold normalStep at h
  cases ht : tokenOf c <;> simp only [ht] at h
  case parenClose =>
    cases hout : st.outer with
    | nil => simp [hout] at h
    | cons f rest =>
      simp only [hout, Option.map_eq_some_iff] at h
      obtain ⟨f', hclose, rfl⟩ := h
      rw [bottom, bottom, hout]
      exact bottomOf_congr (close_opener hclose) rest
  case brace => exact quantifier_bottom h
  case repetition lo hi => exact quantifier_bottom h
  all_goals
    obtain rfl := Option.some.inj h
    exact bottom_congr rfl rfl

theorem settled_step_bottom {c : Byte}
    (h : (st.settle.bind fun st => st.normalStep c) = some st') : st'.bottom = st.bottom := by
  obtain ⟨s, hs, hstep⟩ := Option.bind_eq_some_iff.mp h
  rw [normalStep_bottom hstep, settle_bottom hs]

/-- No step touches what is outside of the outermost parenthesis. -/
theorem step_bottom {c : Byte} (h : st.step c = some st') : st'.bottom = st.bottom := by
  unfold step at h
  cases hm : st.mode <;> simp only [hm] at h
  case normal => exact normalStep_bottom h
  case paren =>
    split_ifs at h
    · obtain rfl := Option.some.inj h
      rfl
    · exact settled_step_bottom h
  case quantifier lo hi =>
    split_ifs at h
    · exact quantify_bottom h
    · exact settled_step_bottom h
  case backref k =>
    split_ifs at h
    · obtain rfl := Option.some.inj h
      rfl
    · exact settled_step_bottom h
  case inClass k =>
    split at h
    · obtain rfl := Option.some.inj h
      exact bottom_congr rfl rfl
    · obtain ⟨k', hk, rfl⟩ := Option.map_eq_some_iff.mp h
      rfl
  case braceLo read =>
    cases read with
    | none | some lo =>
      simp only at h
      split_ifs at h
      all_goals
        obtain rfl := Option.some.inj h
        rfl
  case escape =>
    cases he : escapeOf false c <;> simp only [he] at h <;> obtain rfl := Option.some.inj h <;>
      exact bottom_congr rfl rfl
  all_goals
    split_ifs at h
    all_goals
      obtain rfl := Option.some.inj h
      first
      | rfl
      | exact bottom_congr rfl rfl

theorem run_bottom {text : List Byte} (h : st.run text = some st') : st'.bottom = st.bottom := by
  induction text generalizing st with
  | nil =>
    obtain rfl := Option.some.inj h
    rfl
  | cons c text ih =>
    rw [run, List.foldlM_cons] at h
    obtain ⟨s, hs, hrest⟩ := Option.bind_eq_some_iff.mp h
    rw [ih hrest, step_bottom hs]

/-! ## Pieces of an expression -/

theorem run_append (a b : List Byte) (st : Scan) : st.run (a ++ b) = (st.run a).bind (·.run b) :=
  List.foldlM_append

theorem run_singleton (c : Byte) (st : Scan) : st.run [c] = st.step c := by
  rw [run, List.foldlM_cons]
  cases st.step c <;> rfl

theorem run_cons {c : Byte} {text : List Byte} (h : st.step c = st'.step c) :
    st.run (c :: text) = st'.run (c :: text) := by
  rw [run, run, List.foldlM_cons, List.foldlM_cons, h]

/-- Only `?` and, in a number, a digit goes on with a token that can end here. -/
theorem step_of_settle {c : Byte} (h : st.settle = some st') (hc : c ≠ '?'.toUInt8)
    (hdigit : ∀ k, st.mode = .backref k → isDigit c = false) : st.step c = st'.normalStep c := by
  unfold settle at h
  unfold step
  cases hm : st.mode <;> simp only [hm, reduceCtorEq] at h ⊢
  case normal => rw [Option.some.inj h]
  case paren => simp [hc, settle, hm, Option.some.inj h]
  case quantifier lo hi => simp [hc, settle, hm, h]
  case backref k => simp [hdigit k hm, settle, hm, Option.some.inj h]

theorem settle_mode (h : st.settle = some st') : st'.mode = .normal := by
  unfold settle at h
  cases hm : st.mode <;> simp only [hm, reduceCtorEq] at h
  case normal =>
    obtain rfl := Option.some.inj h
    exact hm
  case quantifier lo hi =>
    obtain ⟨f, -, rfl⟩ := Option.map_eq_some_iff.mp h
    rfl
  all_goals
    obtain rfl := Option.some.inj h
    rfl

theorem run_of_settle {c : Byte} {text : List Byte} (h : st.settle = some st')
    (hc : c ≠ '?'.toUInt8) (hdigit : ∀ k, st.mode = .backref k → isDigit c = false) :
    st.run (c :: text) = st'.run (c :: text) := by
  refine run_cons ?_
  rw [step_of_settle h hc hdigit, step, settle_mode h]

end Scan

theorem compile_eq_some {text : List Byte} {r : Node Byte} (h : compile text = some r) :
    ∃ st, scan text = some st ∧ st.outer = [] ∧ st.frame.disjunction = r ∧
      st.groups = groupCount text ∧ st.maxRef ≤ st.groups := by
  obtain ⟨st, hst, hresult⟩ := Option.bind_eq_some_iff.mp h
  unfold Scan.result at hresult
  split_ifs at hresult with hclosed
  exact ⟨st, hst, hclosed.1, Option.some.inj hresult, by rw [groupCount, hst]; rfl,
    hclosed.2⟩

/-- The atom that a parenthesis makes of its contents. -/
def Opener.wrap (o : Opener) (r : Node Byte) : Node Byte :=
  match o with
  | .capture i => .group i r
  | _ => r

theorem scan_bottom {text : List Byte} {st : Scan} (h : scan text = some st) : st.bottom = .top := by
  obtain ⟨s, hrun, hsettle⟩ := Option.bind_eq_some_iff.mp h
  rw [Scan.settle_bottom hsettle, Scan.run_bottom hrun]
  rfl

theorem close_wrap {f inner : Frame} {o : Opener} (ho : o = .plain ∨ ∃ i, o = .capture i)
    (h : inner.opener = o) : f.close inner = some (f.atom (o.wrap inner.disjunction)) := by
  unfold Frame.close
  rw [h]
  rcases ho with rfl | ⟨i, rfl⟩ <;> rfl

/-- **A well-formed expression between two parentheses** is an atom. -/
theorem run_inside {text : List Byte} {r : Node Byte} (h : compile text = some r) {o : Opener}
    (ho : o = .plain ∨ ∃ i, o = .capture i) (f : Frame) (outer : List Frame) (n m : Nat) :
    ∃ m', (m ≤ n → m' ≤ groupCount text + n) ∧
      Scan.run (text ++ bytes ")") ⟨.normal, .fresh o, f :: outer, n, m⟩ =
      some ⟨.normal, f.atom (o.wrap (r.shift n)), outer, groupCount text + n, m'⟩ := by
  obtain ⟨st', hscan, houter, rfl, hgroups, href⟩ := compile_eq_some h
  obtain ⟨st, hrun, hsettle⟩ := Option.bind_eq_some_iff.mp hscan
  have hstart : Scan.start.embed o (f :: outer) n m = ⟨.normal, .fresh o, f :: outer, n, m⟩ := by
    simp [Scan.start, Scan.embed, Frame.embed, Frame.fresh, Opener.embed, Node.shift]
  have hopener : (st'.frame.embed o n).opener = o := by
    have htop := scan_bottom hscan
    rw [Scan.bottom, houter] at htop
    exact congrArg (Opener.embed o n) htop
  have hclose := @close_wrap f (st'.frame.embed o n) o ho hopener
  rw [Frame.disjunction_embed] at hclose
  refine ⟨max st'.maxRef m, fun hm => by omega, ?_⟩
  rw [Scan.run_append, ← hstart, Scan.run_embed hrun, Option.bind_some]
  have hstep := Scan.step_of_settle (c := ')'.toUInt8)
    (@Scan.settle_embed _ _ o n m (f :: outer) hsettle) (by decide)
    (fun _ _ => by decide)
  have hnormal : (st'.embed o (f :: outer) n m).normalStep ')'.toUInt8 =
      some ⟨.normal, f.atom (o.wrap (st'.frame.disjunction.shift n)), outer,
        st'.groups + n, max st'.maxRef m⟩ := by
    have htoken : tokenOf ')'.toUInt8 = .parenClose := rfl
    unfold Scan.normalStep
    rw [htoken]
    simp only [Scan.embed, houter, List.map_nil, List.nil_append, hclose, Option.map_some]
  have hbyte : bytes ")" = [')'.toUInt8] := rfl
  rw [← hgroups, ← hnormal, ← hstep, hbyte, Scan.run_singleton]

/-- `(?:text)` -/
theorem run_plain {text : List Byte} {r : Node Byte} (h : compile text = some r) (f : Frame)
    (outer : List Frame) (n m : Nat) :
    ∃ m', (m ≤ n → m' ≤ groupCount text + n) ∧
      Scan.run (bytes "(?:" ++ text ++ bytes ")") ⟨.normal, f, outer, n, m⟩ =
      some ⟨.normal, f.atom (r.shift n), outer, groupCount text + n, m'⟩ := by
  obtain ⟨m', hm, hrun⟩ := run_inside h (.inl rfl) f outer n m
  refine ⟨m', hm, ?_⟩
  have hopen : Scan.run (bytes "(?:") ⟨.normal, f, outer, n, m⟩ =
      some ⟨.normal, .fresh .plain, f :: outer, n, m⟩ := rfl
  rw [List.append_assoc, Scan.run_append, hopen, Option.bind_some, hrun]
  rfl

/-- `(text)` -/
theorem run_capture {text : List Byte} {r : Node Byte} (h : compile text = some r)
    (hne : text ≠ []) (f : Frame) (outer : List Frame) (n m : Nat) :
    ∃ m', (m ≤ n → m' ≤ groupCount text + (n + 1)) ∧
      Scan.run (bytes "(" ++ text ++ bytes ")") ⟨.normal, f, outer, n, m⟩ =
      some ⟨.normal, f.atom (.group (n + 1) (r.shift (n + 1))), outer,
        groupCount text + (n + 1), m'⟩ := by
  obtain ⟨m', hm, hrun⟩ := run_inside h (.inr ⟨n + 1, rfl⟩) f outer (n + 1) m
  refine ⟨m', fun hle => hm (Nat.le_succ_of_le hle), ?_⟩
  have hopen : Scan.run (bytes "(") ⟨.normal, f, outer, n, m⟩ = some ⟨.paren, f, outer, n, m⟩ := rfl
  rw [List.append_assoc, Scan.run_append, hopen, Option.bind_some]
  obtain ⟨c, rest, rfl⟩ := List.exists_cons_of_ne_nil hne
  have hc : c ≠ '?'.toUInt8 := by
    rintro rfl
    cases h
  have hsettle : Scan.settle ⟨.paren, f, outer, n, m⟩ =
      some ⟨.normal, .fresh (.capture (n + 1)), f :: outer, n + 1, m⟩ := rfl
  rw [List.cons_append, Scan.run_of_settle hsettle hc (fun _ hk => nomatch hk), ← List.cons_append,
    hrun]
  rfl

/-! ## Words of characters -/

/-- Characters that begin no other token are matched one after the other. -/
theorem run_chars {w : List Byte} {cls : Byte → Byte → Bool}
    (hw : ∀ c ∈ w, tokenOf c = .char (cls c)) (f : Frame) :
    ∃ f', Scan.run w ⟨.normal, f, [], 0, 0⟩ = some ⟨.normal, f', [], 0, 0⟩ ∧ f'.alts = f.alts ∧
      f'.node = (w.map fun c => .char (cls c)).foldl .seq f.node := by
  induction w generalizing f with
  | nil => exact ⟨f, rfl, rfl, rfl⟩
  | cons c w ih =>
    obtain ⟨f', hrun, halts, hnode⟩ := ih (fun c hc => hw c (List.mem_cons_of_mem _ hc))
      (f.atom (.char (cls c)))
    have hstep : Scan.step ⟨.normal, f, [], 0, 0⟩ c =
        some ⟨.normal, f.atom (.char (cls c)), [], 0, 0⟩ := by
      simp only [Scan.step, Scan.normalStep, hw c List.mem_cons_self]
      rfl
    refine ⟨f', ?_, halts, hnode⟩
    rw [← hrun, Scan.run, List.foldlM_cons, hstep]
    rfl

theorem compile_chars {w : List Byte} {cls : Byte → Byte → Bool}
    (hw : ∀ c ∈ w, tokenOf c = .char (cls c)) :
    compile w = some ((w.map fun c => .char (cls c)).foldl .seq .empty) ∧ groupCount w = 0 := by
  obtain ⟨f, hrun, halts, hnode⟩ := run_chars hw (.fresh .top)
  have hscan : scan w = some ⟨.normal, f, [], 0, 0⟩ := by
    rw [scan, Scan.start, hrun]
    rfl
  have hdisj : f.disjunction = (w.map fun c => .char (cls c)).foldl .seq .empty := by
    rw [Frame.disjunction, halts]
    exact hnode
  refine ⟨?_, by rw [groupCount, hscan]; rfl⟩
  rw [compile, hscan, Option.bind_some, Scan.result, if_pos ⟨rfl, Nat.le_refl 0⟩, hdisj]

end Ecma
