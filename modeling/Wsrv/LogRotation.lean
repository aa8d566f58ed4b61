import Wsrv.Util

/-!
# Log rotation

`FileLogger::log` starts a new file when the current one has reached its size.
The old one is compressed to `.1.gz`, behind a chain of renames that begins with
the removal of the oldest file.  When the compression fails the file is renamed
to `.1`, a name the chain never looks at: the next failure replaces it, later
files overtake it, and what the compression left in `.1.gz` stays there.  A
compression that returns true need not have written the whole file: neither a
read error nor the result of `gzclose` is looked at.

A run keeps, besides the files, what was written and what was in the files
that the rotations removed.
-/

namespace Wsrv

open Function

inductive LogLevel
  | debug | info | warning | error | critical

def LogLevel.toString : LogLevel → Str
  | .debug => str "DEBUG"
  | .info => str "INFO"
  | .warning => str "WARN"
  | .error => str "ERROR"
  | .critical => str "CRIT"

/-- The names that are made from `log_path_`. -/
inductive LogFile
  | log
  | gz (i : Nat)
  /-- The fallback, which is not compressed. -/
  | plain
  deriving DecidableEq

def LogFile.path (logPath : Str) : LogFile → Str
  | .log => logPath
  | .gz i => logPath ++ str "." ++ Wsrv.toString i ++ str ".gz"
  | .plain => logPath ++ str ".1"

/-- Different files have different names. -/
theorem LogFile.path_injective (logPath : Str) : Injective (LogFile.path logPath) := by
  have hgz : ∀ i, logPath ++ (str "." ++ toString i ++ str ".gz") = (LogFile.gz i).path logPath :=
    fun i => by simp only [LogFile.path, List.append_assoc]
  have hlast : ∀ i, (str "." ++ toString i ++ str ".gz").getLast? = some 'z'.toUInt8 := fun i =>
    List.getLast?_append_of_ne_nil _ (by decide)
  have hlog : ∀ s, s ≠ [] → logPath ≠ logPath ++ s := fun s hs h =>
    hs (List.append_cancel_left (h.symm.trans (List.append_nil logPath).symm))
  have hplain : ∀ i, (LogFile.gz i).path logPath ≠ LogFile.plain.path logPath := fun i h => by
    rw [← hgz i] at h
    have hend := hlast i
    rw [List.append_cancel_left h] at hend
    exact absurd hend (by decide)
  intro f g h
  cases f with
  | log =>
    cases g with
    | log => rfl
    | gz j =>
      rw [← hgz j] at h
      exact absurd h (hlog _ fun hnil => by simp [str] at hnil)
    | plain => exact absurd h (hlog _ (by decide))
  | gz i =>
    cases g with
    | log =>
      rw [← hgz i] at h
      exact absurd h.symm (hlog _ fun hnil => by simp [str] at hnil)
    | gz j =>
      rw [← hgz i, ← hgz j] at h
      have hnumber := List.append_cancel_left (List.append_cancel_right (List.append_cancel_left h))
      rw [← leadingNumber_toString i, hnumber, leadingNumber_toString]
    | plain => exact absurd h (hplain i)
  | plain =>
    cases g with
    | log => exact absurd h.symm (hlog _ (by decide))
    | gz j => exact absurd h.symm (hplain j)
    | plain => rfl

/-- A line of the log, and its number among all that were written. -/
structure LogEntry where
  number : Nat
  line : Str

/-- The files that exist; a compressed one is taken for what it decompresses to. -/
abbrev LogFiles := LogFile → Option (List LogEntry)

/-- How `compress_file_gzip` ends, and how many lines are whole in the output, if there is one. -/
inductive Compression
  | success
  /-- True as well: a read error ends the loop like the end of the file, and the result of `gzclose`
  is not looked at. -/
  | truncated (output : Nat)
  | failure (output : Option Nat)

/-- What `compress_file_gzip` returns. -/
def Compression.ok : Compression → Bool
  | .success | .truncated _ => true
  | .failure _ => false

/-- The lines of the output. -/
def Compression.lines : Compression → List LogEntry → List LogEntry
  | .success, es => es
  | .truncated n, es => es.take n
  | .failure output, es => es.take (output.getD 0)

theorem Compression.lines_prefix (c : Compression) (es : List LogEntry) : c.lines es <+: es := by
  cases c with
  | success => exact List.prefix_rfl
  | truncated n => exact List.take_prefix n es
  | failure output => exact List.take_prefix _ es

structure LogCall where
  timestamp : Str
  level : LogLevel
  msg : Str
  /-- Should the call rotate. -/
  compression : Compression

def LogCall.line (c : LogCall) : Str :=
  c.timestamp ++ str " " ++ c.level.toString ++ str " " ++ c.msg ++ str "\n"

namespace FileLogger

/-! ## Operations -/

def content (fs : LogFiles) (f : LogFile) : List LogEntry := (fs f).getD []

def fileSize (es : List LogEntry) : Nat := (es.map fun e => e.line.length).sum

def remove (f : LogFile) (fs : LogFiles) : LogFiles := update fs f none

def rename (old new : LogFile) (fs : LogFiles) : LogFiles := update (update fs old none) new (fs old)

/-- `if (fs::exists(old_name)) fs::rename(old_name, new_name)`, from the index down to one. -/
def shiftChain : Nat → LogFiles → LogFiles
  | 0, fs => fs
  | i + 1, fs =>
    shiftChain i (if (fs (.gz (i + 1))).isSome then rename (.gz (i + 1)) (.gz (i + 2)) fs else fs)

/-- `compress_file_gzip`: whether it succeeds, and the files. -/
def compressFileGzip (c : Compression) (source destination : LogFile) (fs : LogFiles) :
    Bool × LogFiles :=
  match c with
  | .failure none => (c.ok, fs)
  | c => (c.ok, update fs destination (some (c.lines (content fs source))))

/-- The files of the set on a disk that maps names to contents. -/
def ofDisk (logPath : Str) (disk : Str → Option (List LogEntry)) : LogFiles := disk ∘ LogFile.path logPath

/-- **A change under one name** changes the file of that name and no other of the set. -/
theorem ofDisk_update (logPath : Str) (disk : Str → Option (List LogEntry)) (f : LogFile)
    (es : Option (List LogEntry)) :
    ofDisk logPath (update disk (f.path logPath) es) = update (ofDisk logPath disk) f es :=
  update_comp_eq_of_injective disk (LogFile.path_injective logPath) f es

def openLog (fs : LogFiles) : LogFiles := update fs .log (some (content fs .log))

def rotateLogs (maxLogFileIdx : Nat) (c : Compression) (fs : LogFiles) : LogFiles :=
  let fs := if (fs (.gz maxLogFileIdx)).isSome then remove (.gz maxLogFileIdx) fs else fs
  let fs := shiftChain maxLogFileIdx fs
  let (ok, fs) := compressFileGzip c .log (.gz 1) fs
  openLog (if ok then remove .log fs else rename .log .plain fs)

def rotates (maxFileSz : Nat) (fs : LogFiles) : Bool :=
  (fs .log).any fun es => maxFileSz ≤ fileSize es

/-- `FileLogger::log`; the stream is open at the end of the file. -/
def log (maxFileSz maxLogFileIdx : Nat) (c : Compression) (e : LogEntry) (fs : LogFiles) : LogFiles :=
  let fs := if rotates maxFileSz fs then rotateLogs maxLogFileIdx c fs else fs
  update fs .log (some (content fs .log ++ [e]))

/-! ## Runs -/

/-- The files, and what a run is to be judged by. -/
structure History where
  files : LogFiles := openLog fun _ => none
  written : List LogEntry := []
  /-- What was in the files that were removed. -/
  evicted : List LogEntry := []

def History.log (maxFileSz maxLogFileIdx : Nat) (h : History) (c : LogCall) : History :=
  let e : LogEntry := ⟨h.written.length, c.line⟩
  { files := FileLogger.log maxFileSz maxLogFileIdx c.compression e h.files
    written := h.written ++ [e]
    evicted :=
      if rotates maxFileSz h.files then h.evicted ++ content h.files (.gz maxLogFileIdx) else h.evicted }

def run (maxFileSz maxLogFileIdx : Nat) (calls : List LogCall) : History :=
  calls.foldl (History.log maxFileSz maxLogFileIdx) {}

def index : LogFile → Nat
  | .log => 0
  | .gz i => i
  | .plain => 1

/-- **Nothing but the oldest is lost**: a line is in exactly one file, or it was in a file that a
rotation removed, and the file with the larger index is the older one. -/
structure Kept (h : History) : Prop where
  once : ∀ e ∈ h.written,
    (e ∈ h.evicted ∧ ∀ f, e ∉ content h.files f) ∨ (e ∉ h.evicted ∧ ∃! f, e ∈ content h.files f)
  older : ∀ f g, index f < index g → ∀ e ∈ content h.files f, ∀ e' ∈ content h.files g,
    e'.number < e.number

/-- The output is whole, or there is none, and the names that a rotation takes are free.  When the
compression returns true, the fallback and `.1.gz` do not both hold lines, unless `.1.gz` is
removed; when it fails, the fallback holds none. -/
def Free (maxLogFileIdx : Nat) (c : Compression) (fs : LogFiles) : Prop :=
  if c.ok = true then
    c.lines (content fs .log) = content fs .log ∧
      (maxLogFileIdx = 1 ∨ content fs .plain = [] ∨ content fs (.gz 1) = [])
  else content fs .plain = [] ∧ c.lines (content fs .log) = []

def Harmless (maxFileSz maxLogFileIdx : Nat) (h : History) (c : LogCall) : Prop :=
  rotates maxFileSz h.files = true → Free maxLogFileIdx c.compression h.files

/-! ## The files behind a rotation -/

@[simp] theorem content_update (fs : LogFiles) (f g : LogFile) (es : Option (List LogEntry)) :
    content (update fs f es) g = if g = f then es.getD [] else content fs g := by
  unfold content
  by_cases h : g = f
  · rw [if_pos h, h, update_self]
  · rw [if_neg h, update_of_ne h]

/-- A rename that is made only when the file exists. -/
theorem rename_if_exists {fs : LogFiles} {old new : LogFile} (hne : new ≠ old) (hnew : fs new = none) :
    (if (fs old).isSome then rename old new fs else fs) = rename old new fs := by
  cases hold : fs old with
  | some es => rfl
  | none =>
    rw [Option.isSome_none, if_neg Bool.false_ne_true, rename, hold]
    conv_lhs => rw [← update_eq_self old fs, hold, ← update_eq_self new (update fs old none)]
    rw [update_of_ne hne, hnew]

/-- The chain moves the first `n` compressed files up by one. -/
theorem shiftChain_apply (n : Nat) {fs : LogFiles} (h : fs (.gz (n + 1)) = none) (f : LogFile) :
    shiftChain n fs f =
      match f with
      | .gz j => if 1 ≤ j ∧ j ≤ n + 1 then (if j = 1 then none else fs (.gz (j - 1))) else fs (.gz j)
      | f => fs f := by
  induction n generalizing fs with
  | zero =>
    cases f with
    | gz j =>
      simp only [shiftChain]
      split
      · next hj =>
        obtain rfl : j = 1 := by omega
        exact h
      · rfl
    | log => rfl
    | plain => rfl
  | succ n ih =>
    have hne : LogFile.gz (n + 1 + 1) ≠ .gz (n + 1) := by simp
    rw [shiftChain, rename_if_exists hne h, ih (by simp [rename])]
    cases f with
    | gz j =>
      simp only [rename, update_apply, LogFile.gz.injEq]
      grind
    | log => simp [rename]
    | plain => simp [rename]

/-- The files in front of the compression; none has an index above the largest. -/
theorem content_shiftChain (k : Nat) {fs : LogFiles} (h : ∀ j, k + 1 < j → fs (.gz j) = none)
    (f : LogFile) :
    content (shiftChain (k + 1) (remove (.gz (k + 1)) fs)) f =
      match f with
      | .gz 0 => content fs (.gz 0)
      | .gz 1 => []
      | .gz (j + 2) => if j < k then content fs (.gz (j + 1)) else []
      | f => content fs f := by
  have hbeyond : remove (.gz (k + 1)) fs (.gz (k + 1 + 1)) = none := by
    simp [remove, h (k + 1 + 1) (by omega)]
  unfold content
  rw [shiftChain_apply (k + 1) hbeyond]
  match f with
  | .log => simp [remove]
  | .plain => simp [remove]
  | .gz 0 => simp [remove]
  | .gz 1 => simp
  | .gz (j + 2) =>
    have hnone : k ≤ j → fs (.gz (j + 2)) = none := fun hj => h (j + 2) (by omega)
    simp only [remove, update_apply, LogFile.gz.injEq]
    grind

theorem remove_if_exists (f : LogFile) (fs : LogFiles) :
    (if (fs f).isSome then remove f fs else fs) = remove f fs := by
  cases hold : fs f with
  | some es => rfl
  | none => rw [Option.isSome_none, if_neg Bool.false_ne_true, remove, ← hold, update_eq_self]

theorem compressFileGzip_ok (c : Compression) (source destination : LogFile) (fs : LogFiles) :
    (compressFileGzip c source destination fs).1 = c.ok := by
  rcases c with _ | _ | _ | _ <;> rfl

/-- The chain has left no lines where the output goes. -/
theorem content_compressFileGzip (c : Compression) {fs : LogFiles} (h : content fs (.gz 1) = [])
    (f : LogFile) :
    content (compressFileGzip c .log (.gz 1) fs).2 f =
      if f = .gz 1 then c.lines (content fs .log) else content fs f := by
  rcases c with _ | n | _ | n
  · exact content_update ..
  · exact content_update ..
  · by_cases hf : f = .gz 1
    · rw [if_pos hf, hf]
      exact h
    · rw [if_neg hf]
      rfl
  · exact content_update ..

/-- What a rotation makes of the files. -/
theorem content_rotateLogs (k : Nat) (c : Compression) {fs : LogFiles}
    (h : ∀ j, k + 1 < j → fs (.gz j) = none) (f : LogFile) :
    content (rotateLogs (k + 1) c fs) f =
      match f with
      | .log => []
      | .plain => if c.ok = true then content fs .plain else content fs .log
      | .gz 0 => content fs (.gz 0)
      | .gz 1 => c.lines (content fs .log)
      | .gz (j + 2) => if j < k then content fs (.gz (j + 1)) else [] := by
  have hchain := content_shiftChain k h
  unfold rotateLogs
  simp only [remove_if_exists]
  generalize shiftChain (k + 1) (remove (.gz (k + 1)) fs) = fs₁ at hchain ⊢
  have hcontent := content_compressFileGzip c (hchain (.gz 1))
  rw [compressFileGzip_ok]
  generalize (compressFileGzip c .log (.gz 1) fs₁).2 = fs₂ at hcontent ⊢
  have hlog : (fs₂ .log).getD [] = content fs .log := (hcontent .log).trans (hchain .log)
  by_cases hok : c.ok = true
  · rw [if_pos hok]
    simp only [openLog, remove, content_update]
    rcases f with _ | (_ | _ | j) | _ <;> simp [hcontent, hchain, hok]
  · rw [if_neg hok]
    simp only [openLog, rename, content_update]
    rcases f with _ | (_ | _ | j) | _ <;> simp [hcontent, hchain, hok, hlog]

/-- Where a line of the files of a rotation comes from. -/
theorem mem_rotateLogs {k : Nat} {c : Compression} {fs : LogFiles}
    (h : ∀ j, k + 1 < j → fs (.gz j) = none) {f : LogFile} {e : LogEntry}
    (he : e ∈ content (rotateLogs (k + 1) c fs) f) :
    e ∈ c.lines (content fs .log) ∨ e ∈ content fs (if c.ok = true then .plain else .log) ∨
      ∃ i, e ∈ content fs (.gz i) := by
  rw [content_rotateLogs k c h f] at he
  match f with
  | .log => exact nomatch he
  | .plain =>
    refine .inr (.inl ?_)
    simp only at he
    split_ifs at he ⊢
    · exact he
    · exact he
  | .gz 0 => exact .inr (.inr ⟨0, he⟩)
  | .gz 1 => exact .inl he
  | .gz (j + 2) =>
    simp only at he
    split_ifs at he
    · exact .inr (.inr ⟨j + 1, he⟩)
    · exact nomatch he

/-- Beyond the largest index there is no file. -/
theorem rotateLogs_bounds (k : Nat) (c : Compression) {fs : LogFiles}
    (h : ∀ j, j = 0 ∨ k + 1 < j → fs (.gz j) = none) (j : Nat) (hj : j = 0 ∨ k + 1 < j) :
    rotateLogs (k + 1) c fs (.gz j) = none := by
  have hbeyond : remove (.gz (k + 1)) fs (.gz (k + 1 + 1)) = none := by
    simp [remove, h (k + 1 + 1) (by omega)]
  have hchain : shiftChain (k + 1) (remove (.gz (k + 1)) fs) (.gz j) = none := by
    rw [shiftChain_apply (k + 1) hbeyond]
    have hnone := h j hj
    simp only [remove, update_apply, LogFile.gz.injEq]
    grind
  have hne : j ≠ 1 := by omega
  unfold rotateLogs
  simp only [remove_if_exists]
  generalize shiftChain (k + 1) (remove (.gz (k + 1)) fs) = fs₁ at hchain ⊢
  rcases c with _ | n | _ | n <;>
    simp [compressFileGzip, Compression.ok, openLog, remove, rename, hne, hchain]

/-! ## The order of the files -/

/-- The compressed files from the index `k + 1` down to two. -/
def olderFiles : Nat → List LogFile
  | 0 => []
  | k + 1 => .gz (k + 2) :: olderFiles k

/-- The files, the oldest first, as long as nothing is lost. -/
def order (k : Nat) : List LogFile := olderFiles k ++ [.plain, .gz 1, .log]

def older (fs : LogFiles) (k : Nat) : List LogEntry := (olderFiles k).flatMap (content fs)

def kept (fs : LogFiles) (k : Nat) : List LogEntry := (order k).flatMap (content fs)

theorem kept_eq (fs : LogFiles) (k : Nat) :
    kept fs k = older fs k ++ (content fs .plain ++ (content fs (.gz 1) ++ content fs .log)) := by
  simp [kept, order, older]

theorem mem_olderFiles {k : Nat} {f : LogFile} : f ∈ olderFiles k ↔ ∃ j < k, f = .gz (j + 2) := by
  induction k with
  | zero => simp [olderFiles]
  | succ k ih =>
    rw [olderFiles, List.mem_cons, ih]
    constructor
    · rintro (rfl | ⟨j, hj, rfl⟩)
      · exact ⟨k, by omega, rfl⟩
      · exact ⟨j, by omega, rfl⟩
    · rintro ⟨j, hj, rfl⟩
      by_cases hjk : j = k
      · exact .inl (by rw [hjk])
      · exact .inr ⟨j, by omega, rfl⟩

/-- The place of a file in the order, from its end. -/
def rank : LogFile → Nat
  | .log => 0
  | .gz i => if i = 1 then 1 else i + 1
  | .plain => 2

theorem rank_gz (i : Nat) : rank (.gz (i + 2)) = i + 3 := by simp [rank]

theorem order_rank (k : Nat) : (order k).Pairwise fun f g => rank g < rank f := by
  have hlast : [LogFile.plain, .gz 1, .log].Pairwise fun f g => rank g < rank f := by decide
  have hmem : ∀ f ∈ [LogFile.plain, .gz 1, .log], rank f < 3 := by decide
  induction k with
  | zero => exact hlast
  | succ k ih =>
    rw [order, olderFiles, List.cons_append, List.pairwise_cons]
    refine ⟨fun f hf => ?_, ih⟩
    rw [rank_gz]
    rcases List.mem_append.mp hf with hf | hf
    · obtain ⟨j, hj, rfl⟩ := mem_olderFiles.mp hf
      rw [rank_gz]
      omega
    · exact (hmem f hf).trans_le (Nat.le_add_left 3 k)

/-- Lines of different files are in the order of the files. -/
theorem kept_ordered {fs : LogFiles} {k : Nat}
    (h : (kept fs k).Pairwise fun e e' => e.number < e'.number) {f g : LogFile} (hf : f ∈ order k)
    (hg : g ∈ order k) (hrank : rank f < rank g) :
    ∀ e ∈ content fs f, ∀ e' ∈ content fs g, e'.number < e.number := by
  have hpairs : (order k).Pairwise fun a b =>
      rank b < rank a → ∀ x ∈ content fs a, ∀ y ∈ content fs b, x.number < y.number :=
    (List.pairwise_flatMap.mp h).2.imp fun {a b} hab (_ : rank b < rank a) => hab
  have hflip : (order k).Pairwise (flip fun a b =>
      rank b < rank a → ∀ x ∈ content fs a, ∀ y ∈ content fs b, x.number < y.number) :=
    (order_rank k).imp fun hlt hgt => absurd hgt (Nat.lt_asymm hlt)
  intro e he e' he'
  exact hpairs.forall_of_forall_of_flip (fun a _ hlt => absurd hlt (Nat.lt_irrefl _)) hflip hg hf hrank
    e' he' e he

/-! ## The invariant -/

/-- The lines of the files, in their order, and the lines of the removed files are what was
written. -/
structure Inv (k : Nat) (h : History) : Prop where
  bounds : ∀ j, j = 0 ∨ k + 1 < j → h.files (.gz j) = none
  perm : (h.evicted ++ kept h.files k).Perm h.written
  sorted : (kept h.files k).Pairwise fun e e' => e.number < e'.number
  numbers : h.written.map LogEntry.number = List.range h.written.length

variable {k : Nat} {h : History}

theorem Inv.written_nodup (hi : Inv k h) : h.written.Nodup :=
  List.Nodup.of_map LogEntry.number (hi.numbers ▸ List.nodup_range)

theorem Inv.disjoint (hi : Inv k h) {e : LogEntry} (he : e ∈ h.evicted) : e ∉ kept h.files k :=
  fun hk => List.disjoint_of_nodup_append (hi.perm.nodup_iff.mpr hi.written_nodup) he hk

theorem Inv.number_lt (hi : Inv k h) {e : LogEntry} (he : e ∈ h.written) :
    e.number < h.written.length := by
  have hmem := List.mem_map_of_mem (f := LogEntry.number) he
  rw [hi.numbers] at hmem
  exact List.mem_range.mp hmem

/-- A file with lines in it is one of the order. -/
theorem Inv.mem_order (hi : Inv k h) {f : LogFile} {e : LogEntry} (he : e ∈ content h.files f) :
    f ∈ order k := by
  unfold order
  match f with
  | .log => simp
  | .plain => simp
  | .gz 0 =>
    rw [content, hi.bounds 0 (.inl rfl)] at he
    exact nomatch he
  | .gz 1 => simp
  | .gz (j + 2) =>
    by_cases hj : j < k
    · exact List.mem_append_left _ (mem_olderFiles.mpr ⟨j, hj, rfl⟩)
    · rw [content, hi.bounds (j + 2) (.inr (by omega))] at he
      exact nomatch he

theorem Inv.mem_kept (hi : Inv k h) {e : LogEntry} :
    e ∈ kept h.files k ↔ ∃ f, e ∈ content h.files f := by
  unfold kept
  rw [List.mem_flatMap]
  exact ⟨fun ⟨f, _, he⟩ => ⟨f, he⟩, fun ⟨f, he⟩ => ⟨f, hi.mem_order he, he⟩⟩

theorem rank_inj {f g : LogFile} (hf : f ∈ order k) (hg : g ∈ order k) (h : rank f = rank g) : f = g := by
  by_contra hne
  have hpairs : (order k).Pairwise fun a b => rank a ≠ rank b := (order_rank k).imp fun hlt => hlt.ne'
  have hflip : (order k).Pairwise (flip fun a b => a ≠ b → rank a ≠ rank b) :=
    (order_rank k).imp fun {a b} hlt (_ : b ≠ a) => hlt.ne
  exact (hpairs.imp fun {a b} hab (_ : a ≠ b) => hab).forall_of_forall_of_flip
    (fun a _ hn => absurd rfl hn) hflip hf hg hne h

theorem index_lt_rank {f g : LogFile} (hf : f ∈ order k) (hg : g ∈ order k) (h : index f < index g) :
    rank f < rank g := by
  have hpos : ∀ i, .gz i ∈ order k → 0 < i := fun i hi => by
    rcases List.mem_append.mp hi with hi | hi
    · obtain ⟨j, -, hj⟩ := mem_olderFiles.mp hi
      rw [LogFile.gz.inj hj]
      omega
    · simp only [List.mem_cons, reduceCtorEq, LogFile.gz.injEq, List.not_mem_nil, or_false, false_or] at hi
      omega
  cases f <;> cases g <;> simp only [index, rank] at h ⊢
  all_goals grind

/-- In two files, a line would be older than itself. -/
theorem Inv.sole (hi : Inv k h) {f g : LogFile} {e : LogEntry} (hf : e ∈ content h.files f)
    (hg : e ∈ content h.files g) : f = g := by
  have hmf := hi.mem_order hf
  have hmg := hi.mem_order hg
  rcases Nat.lt_trichotomy (rank f) (rank g) with hlt | heq | hgt
  · exact absurd (kept_ordered hi.sorted hmf hmg hlt e hf e hg) (Nat.lt_irrefl _)
  · exact rank_inj hmf hmg heq
  · exact absurd (kept_ordered hi.sorted hmg hmf hgt e hg e hf) (Nat.lt_irrefl _)

/-- **The invariant says that nothing but the oldest is lost.** -/
theorem Inv.kept (hi : Inv k h) : Kept h where
  once := fun e he => by
    have hmem := hi.perm.mem_iff.mpr he
    by_cases hev : e ∈ h.evicted
    · exact .inl ⟨hev, fun f hf => hi.disjoint hev (hi.mem_kept.mpr ⟨f, hf⟩)⟩
    · obtain ⟨f, hf⟩ := hi.mem_kept.mp ((List.mem_append.mp hmem).resolve_left hev)
      exact .inr ⟨hev, f, hf, fun g hg => hi.sole hg hf⟩
  older := fun f g hfg e he e' he' =>
    kept_ordered hi.sorted (hi.mem_order he) (hi.mem_order he')
      (index_lt_rank (hi.mem_order he) (hi.mem_order he') hfg) e he e' he'

/-! ## One call -/

theorem older_congr {fs fs' : LogFiles} {k : Nat}
    (h : ∀ j < k, content fs' (.gz (j + 2)) = content fs (.gz (j + 2))) : older fs' k = older fs k := by
  unfold older
  refine List.flatMap_congr fun f hf => ?_
  obtain ⟨j, hj, rfl⟩ := mem_olderFiles.mp hf
  exact h j hj

theorem older_zero (fs : LogFiles) : older fs 0 = [] := rfl

theorem older_succ (fs : LogFiles) (n : Nat) :
    older fs (n + 1) = content fs (.gz (n + 2)) ++ older fs n := rfl

/-- The chain of files one further up. -/
theorem older_shifted {fs fs' : LogFiles} {k : Nat}
    (h : ∀ j < k + 1, content fs' (.gz (j + 2)) = content fs (.gz (j + 1))) :
    older fs' (k + 1) = older fs k ++ content fs (.gz 1) := by
  induction k with
  | zero => simp [older, olderFiles, h 0]
  | succ k ih =>
    have hrest := ih fun j hj => h j (by omega)
    rw [older_succ, h (k + 1) (by omega), hrest, older_succ, List.append_assoc]

/-- The files have one line more, in the current one. -/
theorem Inv.append (hi : Inv k h) (line : Str) :
    Inv k
      { files := update h.files .log (some (content h.files .log ++ [⟨h.written.length, line⟩]))
        written := h.written ++ [⟨h.written.length, line⟩]
        evicted := h.evicted } := by
  have hkept : FileLogger.kept
      (update h.files .log (some (content h.files .log ++ [⟨h.written.length, line⟩]))) k =
        FileLogger.kept h.files k ++ [⟨h.written.length, line⟩] := by
    rw [kept_eq, kept_eq, @older_congr h.files _ k fun j _ => by simp]
    simp
  constructor
  · intro j hj
    simpa using hi.bounds j hj
  · rw [hkept, ← List.append_assoc]
    exact hi.perm.append_right _
  · rw [hkept, List.pairwise_append]
    refine ⟨hi.sorted, List.pairwise_singleton _ _, fun e he e' he' => ?_⟩
    rw [List.mem_singleton.mp he']
    exact hi.number_lt (hi.perm.mem_iff.mp (List.mem_append_right _ he))
  · rw [List.map_append, hi.numbers, List.length_append, List.length_singleton, List.range_succ]
    rfl

theorem Inv.rotate (hi : Inv k h) {c : Compression} (hc : Free (k + 1) c h.files) :
    Inv k
      { files := rotateLogs (k + 1) c h.files
        written := h.written
        evicted := h.evicted ++ content h.files (.gz (k + 1)) } := by
  have hcontent := content_rotateLogs k c fun j hj => hi.bounds j (.inr hj)
  -- The removed file and the new files are the old ones.
  have hparts : (content h.files (.gz (k + 1)) ++ FileLogger.kept (rotateLogs (k + 1) c h.files) k).Perm
        (FileLogger.kept h.files k) ∧
      (FileLogger.kept (rotateLogs (k + 1) c h.files) k).Sublist (FileLogger.kept h.files k) := by
    rw [kept_eq, kept_eq, hcontent .plain, hcontent (.gz 1), hcontent .log]
    unfold Free at hc
    cases hok : c.ok with
    | true =>
      rw [if_pos hok] at hc
      obtain ⟨hlines, hfree⟩ := hc
      simp only [if_true, hlines, List.append_nil]
      cases k with
      | zero =>
        rw [older_zero, older_zero, List.nil_append, List.nil_append]
        exact ⟨List.perm_append_comm_assoc _ _ _,
          (List.Sublist.refl _).append (List.sublist_append_right _ _)⟩
      | succ k =>
        rw [older_shifted fun j hj => (hcontent (.gz (j + 2))).trans (if_pos hj), older_succ]
        rcases hfree with hzero | hplain | hgz
        · exact absurd hzero (by omega)
        · simp only [hplain, List.nil_append, List.append_assoc]
          exact ⟨.refl _, List.sublist_append_right _ _⟩
        · simp only [hgz, List.nil_append, List.append_nil, List.append_assoc]
          exact ⟨.refl _, List.sublist_append_right _ _⟩
    | false =>
      rw [if_neg (by rw [hok]; decide)] at hc
      obtain ⟨hplain, hlines⟩ := hc
      simp only [Bool.false_eq_true, if_false, hplain, hlines, List.nil_append, List.append_nil]
      cases k with
      | zero => exact ⟨.refl _, List.sublist_append_right _ _⟩
      | succ k =>
        rw [older_shifted fun j hj => (hcontent (.gz (j + 2))).trans (if_pos hj), older_succ]
        simp only [List.append_assoc]
        exact ⟨.refl _, List.sublist_append_right _ _⟩
  refine ⟨rotateLogs_bounds k c hi.bounds, ?_, hi.sorted.sublist hparts.2, hi.numbers⟩
  rw [List.append_assoc]
  exact (hparts.1.append_left h.evicted).trans hi.perm

section Rotation

variable {maxFileSz : Nat} {c : LogCall} (hi : Inv k h) (hrotates : rotates maxFileSz h.files = true)

include hrotates in
/-- A call that rotates leaves the files of the rotation, and one line. -/
theorem content_log (f : LogFile) :
    content (h.log maxFileSz (k + 1) c).files f =
      if f = .log then content (rotateLogs (k + 1) c.compression h.files) .log ++
        [⟨h.written.length, c.line⟩]
      else content (rotateLogs (k + 1) c.compression h.files) f := by
  simp only [History.log, FileLogger.log, hrotates, if_true, content_update, Option.getD_some]

include hi

theorem Inv.mem_written {f : LogFile} {e : LogEntry} (he : e ∈ content h.files f) :
    e ∈ (h.log maxFileSz (k + 1) c).written :=
  List.mem_append_left _ (hi.perm.mem_iff.mp (List.mem_append_right _ (hi.mem_kept.mpr ⟨f, he⟩)))

include hrotates

/-- A line that no file of the rotation holds, though its file was not the oldest. -/
theorem Inv.not_kept_of_gone {f₀ : LogFile} {e : LogEntry} (he : e ∈ content h.files f₀)
    (hf₀ : f₀ ≠ .gz (k + 1))
    (hgone : ∀ f, e ∉ content (rotateLogs (k + 1) c.compression h.files) f) :
    ¬ Kept (h.log maxFileSz (k + 1) c) := by
  intro hkept
  have hevicted : (h.log maxFileSz (k + 1) c).evicted =
      h.evicted ++ content h.files (.gz (k + 1)) := if_pos hrotates
  rcases hkept.once e (hi.mem_written he) with ⟨hev, -⟩ | ⟨-, f, hf, -⟩
  · rw [hevicted] at hev
    rcases List.mem_append.mp hev with hev | hev
    · exact hi.disjoint hev (hi.mem_kept.mpr ⟨_, he⟩)
    · exact hf₀ (hi.sole he hev)
  · have hlt := hi.number_lt (hi.perm.mem_iff.mp (List.mem_append_right _ (hi.mem_kept.mpr ⟨_, he⟩)))
    simp only [content_log hrotates] at hf
    split at hf
    · rcases List.mem_append.mp hf with hf | hf
      · exact hgone _ hf
      · rw [List.mem_singleton.mp hf] at hlt
        exact Nat.lt_irrefl _ hlt
    · exact hgone f hf

/-- The compression returns true, and a line of the log is not in its output. -/
theorem Inv.not_kept_of_truncated (hok : c.compression.ok = true)
    (hlines : c.compression.lines (content h.files .log) ≠ content h.files .log) :
    ¬ Kept (h.log maxFileSz (k + 1) c) := by
  obtain ⟨rest, hrest⟩ := c.compression.lines_prefix (content h.files .log)
  have hne : rest ≠ [] := by
    rintro rfl
    exact hlines ((List.append_nil _).symm.trans hrest)
  obtain ⟨e, he⟩ := List.exists_mem_of_ne_nil _ hne
  have hlog : e ∈ content h.files .log := hrest ▸ List.mem_append_right _ he
  have hnodup : (content h.files .log).Nodup := by
    have hall := hi.perm.nodup_iff.mpr hi.written_nodup
    rw [kept_eq] at hall
    exact hall.of_append_right.of_append_right.of_append_right.of_append_right
  rw [← hrest] at hnodup
  have hother {f : LogFile} (hf : f ≠ .log) : e ∉ content h.files f := fun hef =>
    hf (hi.sole hef hlog)
  refine hi.not_kept_of_gone hrotates hlog (by simp) fun f hf => ?_
  rcases mem_rotateLogs (fun j hj => hi.bounds j (.inr hj)) hf with hf | hf | ⟨i, hf⟩
  · exact List.disjoint_of_nodup_append hnodup hf he
  · rw [if_pos hok] at hf
    exact hother (by decide) hf
  · exact hother (by simp) hf

/-- The compression fails, and the old fallback holds a line. -/
theorem Inv.not_kept_of_replaced (hok : c.compression.ok = false)
    (hplain : content h.files .plain ≠ []) : ¬ Kept (h.log maxFileSz (k + 1) c) := by
  obtain ⟨e, he⟩ := List.exists_mem_of_ne_nil _ hplain
  have hother {f : LogFile} (hf : f ≠ .plain) : e ∉ content h.files f := fun hef =>
    hf (hi.sole hef he)
  refine hi.not_kept_of_gone hrotates he (by simp) fun f hf => ?_
  rcases mem_rotateLogs (fun j hj => hi.bounds j (.inr hj)) hf with hf | hf | ⟨i, hf⟩
  · exact hother (by decide) ((c.compression.lines_prefix _).subset hf)
  · rw [if_neg (by rw [hok]; decide)] at hf
    exact hother (by decide) hf
  · exact hother (by simp) hf

/-- The compression fails, and a line is in its output and in the fallback. -/
theorem Inv.not_kept_of_doubled (hok : c.compression.ok = false)
    (hlines : c.compression.lines (content h.files .log) ≠ []) :
    ¬ Kept (h.log maxFileSz (k + 1) c) := by
  intro hkept
  have hcontent := content_rotateLogs k c.compression fun j hj => hi.bounds j (.inr hj)
  obtain ⟨e, he⟩ := List.exists_mem_of_ne_nil _ hlines
  have hlog := (c.compression.lines_prefix _).subset he
  have hgz : e ∈ content (h.log maxFileSz (k + 1) c).files (.gz 1) := by
    rw [content_log hrotates, if_neg (by decide), hcontent (.gz 1)]
    exact he
  have hnew : e ∈ content (h.log maxFileSz (k + 1) c).files .plain := by
    rw [content_log hrotates, if_neg (by decide), hcontent .plain]
    simp only [hok, Bool.false_eq_true, if_false]
    exact hlog
  rcases hkept.once e (hi.mem_written hlog) with ⟨-, hnone⟩ | ⟨-, hone⟩
  · exact hnone _ hgz
  · exact nomatch hone.unique hgz hnew

/-- The compression returns true, and the new `.2.gz` is younger than the fallback. -/
theorem Inv.not_kept_of_overtaken (hok : c.compression.ok = true) (hk : k ≠ 0)
    (hplain : content h.files .plain ≠ []) (hgz : content h.files (.gz 1) ≠ []) :
    ¬ Kept (h.log maxFileSz (k + 1) c) := by
  intro hkept
  have hcontent := content_rotateLogs k c.compression fun j hj => hi.bounds j (.inr hj)
  obtain ⟨e, he⟩ := List.exists_mem_of_ne_nil _ hplain
  obtain ⟨e', he'⟩ := List.exists_mem_of_ne_nil _ hgz
  have hsecond : content (rotateLogs (k + 1) c.compression h.files) (.gz 2) =
      content h.files (.gz 1) :=
    (hcontent (.gz (0 + 2))).trans (if_pos (Nat.pos_of_ne_zero hk))
  have hsame : content (rotateLogs (k + 1) c.compression h.files) .plain = content h.files .plain :=
    (hcontent .plain).trans (if_pos hok)
  have hbefore := kept_ordered hi.sorted (hi.mem_order he') (hi.mem_order he) (by decide) e' he' e he
  have hafter := hkept.older .plain (.gz 2) (by decide) e
    (by rw [content_log hrotates, if_neg (by decide), hsame]; exact he) e'
    (by rw [content_log hrotates, if_neg (by decide), hsecond]; exact he')
  exact Nat.lt_asymm hbefore hafter

end Rotation

/-- Otherwise a line is lost, or it is in two files, or a younger one has the larger index. -/
theorem Inv.not_kept (hi : Inv k h) {maxFileSz : Nat} {c : LogCall}
    (hc : ¬ Harmless maxFileSz (k + 1) h c) : ¬ Kept (h.log maxFileSz (k + 1) c) := by
  unfold Harmless at hc
  rw [Classical.not_imp] at hc
  obtain ⟨hrotates, hfree⟩ := hc
  unfold Free at hfree
  cases hok : c.compression.ok with
  | true =>
    rw [if_pos hok] at hfree
    by_cases hlines : c.compression.lines (content h.files .log) = content h.files .log
    · have hfree := not_and.mp hfree hlines
      rw [not_or, not_or] at hfree
      obtain ⟨hk, hplain, hgz⟩ := hfree
      exact hi.not_kept_of_overtaken hrotates hok (by omega) hplain hgz
    · exact hi.not_kept_of_truncated hrotates hok hlines
  | false =>
    rw [if_neg (by rw [hok]; decide)] at hfree
    by_cases hplain : content h.files .plain = []
    · exact hi.not_kept_of_doubled hrotates hok (not_and.mp hfree hplain)
    · exact hi.not_kept_of_replaced hrotates hok hplain

/-- **One call**: harmless calls keep the invariant. -/
theorem Inv.log (hi : Inv k h) {maxFileSz : Nat} {c : LogCall}
    (hc : Harmless maxFileSz (k + 1) h c) : Inv k (h.log maxFileSz (k + 1) c) := by
  unfold History.log FileLogger.log
  cases hrotates : rotates maxFileSz h.files with
  | false => exact hi.append c.line
  | true => exact (hi.rotate (hc hrotates)).append c.line

/-! ## Runs of calls -/

theorem Inv.start (k : Nat) : Inv k {} := by
  have hcontent : ∀ f, content (openLog fun _ => none) f = [] := fun f => by
    rw [openLog, content_update]
    split <;> rfl
  have hkept : FileLogger.kept (openLog fun _ => none) k = [] :=
    List.flatMap_eq_nil_iff.mpr fun f _ => hcontent f
  refine ⟨fun j _ => rfl, ?_, ?_, rfl⟩
  · rw [hkept]
    exact .refl _
  · rw [hkept]
    exact .nil

theorem run_concat (maxFileSz maxLogFileIdx : Nat) (calls : List LogCall) (c : LogCall) :
    run maxFileSz maxLogFileIdx (calls ++ [c]) =
      (run maxFileSz maxLogFileIdx calls).log maxFileSz maxLogFileIdx c :=
  List.foldl_concat ..

def failing : LogCall := ⟨[], .error, [], .failure none⟩

/-- With the second of two failures the line of the first one is gone. -/
theorem fallback_replaced : ¬ Kept (run 1 1 [failing, failing, failing]) := by
  have hfirst : Inv 0 (run 1 1 [failing]) := (Inv.start 0).log fun h => nomatch h
  have hsecond : Inv 0 (run 1 1 [failing, failing]) := hfirst.log fun _ => ⟨rfl, rfl⟩
  refine hsecond.not_kept fun hharm => ?_
  exact nomatch (hharm rfl).1

/-- **Nothing but the oldest is lost** in all the states of a run exactly when every call of it is
harmless. -/
theorem kept_iff (maxFileSz k : Nat) (calls : List LogCall) :
    (∀ done, done <+: calls → Kept (run maxFileSz (k + 1) done)) ↔
      ∀ done c, done ++ [c] <+: calls →
        Harmless maxFileSz (k + 1) (run maxFileSz (k + 1) done) c := by
  -- Either side keeps the invariant up to the next call.
  have hinv : (∀ done c, done ++ [c] <+: calls → Inv k (run maxFileSz (k + 1) done) →
        Harmless maxFileSz (k + 1) (run maxFileSz (k + 1) done) c) →
      ∀ done, done <+: calls → Inv k (run maxFileSz (k + 1) done) := by
    intro hstep done
    induction done using List.reverseRecOn with
    | nil => exact fun _ => .start k
    | append_singleton done c ih =>
      intro hdone
      have hi := ih ((List.prefix_append done [c]).trans hdone)
      rw [run_concat]
      exact hi.log (hstep done c hdone hi)
  constructor
  · intro hkept
    have hstep : ∀ done c, done ++ [c] <+: calls → Inv k (run maxFileSz (k + 1) done) →
        Harmless maxFileSz (k + 1) (run maxFileSz (k + 1) done) c := by
      intro done c hdone hi
      by_contra hharm
      refine hi.not_kept hharm ?_
      rw [← run_concat]
      exact hkept _ hdone
    exact fun done c hdone =>
      hstep done c hdone (hinv hstep done ((List.prefix_append done [c]).trans hdone))
  · intro hharm done hdone
    exact (hinv (fun done c hdone _ => hharm done c hdone) done hdone).kept

end FileLogger

end Wsrv
