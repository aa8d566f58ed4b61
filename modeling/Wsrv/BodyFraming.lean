import Wsrv.DecodeSafety
import Wsrv.FormFields

/-!
# Form data and the framing of the body

The HTTP parser delivers a body by its own rules: chunked coding or a length
whose digits may have spaces between them.  `parse_form_data` looks at the
`Content-Length` header again, with `stoi`.

`unframedForm` is the form as a function of the content type and the body, and
`decode_framingFree_iff` says when the decoder computes it.
-/

namespace Wsrv.RequestParser

open FormFields (items field? fieldsOf front stored insertAll)

/-! ## The first line of a body -/

/-- What `get_next_line` reads of a body with a limit. -/
def lineRead (body : Str) (n : Nat) : Str := (getNextLine ⟨body, false⟩ n).1

/-- The first line of a body; the length of the body is the limit. -/
def firstLine (body : Str) : Str := lineRead body body.length

theorem getNextLineLoop_res (n : Nat) (res : Str) (strm : IStream) :
    (getNextLineLoop n res strm).1 = res ++ (getNextLineLoop n [] strm).1 := by
  induction n using Nat.strong_induction_on generalizing res strm with
  | _ n ih =>
    cases n with
    | zero => simp [getNextLineLoop]
    | succ n =>
      rw [getNextLineLoop, getNextLineLoop]
      by_cases heof : strm.eof = true
      · simp [heof]
      simp only [heof, Bool.false_eq_true, if_false]
      by_cases hcr : strm.get.1 = CR
      · simp only [hcr, if_true]
        by_cases hlf : strm.get.2.get.1 = LF
        · simp [hlf]
        · simp only [hlf, if_false]
          cases n with
          | zero => simp
          | succ n => rw [ih n (by omega), ih n (by omega) ([] ++ _)]; simp
      · simp only [hcr, if_false]
        rw [ih n (by omega), ih n (by omega) ([] ++ _)]
        simp

theorem lineRead_zero (body : Str) : lineRead body 0 = [] := rfl

theorem lineRead_nil (n : Nat) : lineRead [] (n + 1) = [255] := by
  unfold lineRead getNextLine
  rw [getNextLineLoop]
  simp only [Bool.false_eq_true, if_false, IStream.get]
  rw [if_neg (by decide)]
  cases n with
  | zero => rfl
  | succ n => simp [getNextLineLoop]

theorem lineRead_cons {c : UInt8} (hc : c ≠ CR) (rest : Str) (n : Nat) :
    lineRead (c :: rest) (n + 1) = c :: lineRead rest n := by
  unfold lineRead getNextLine
  rw [getNextLineLoop]
  simp only [Bool.false_eq_true, if_false, IStream.get, hc]
  rw [getNextLineLoop_res]
  rfl

theorem lineRead_lineEnd (rest : Str) (n : Nat) : lineRead (CR :: LF :: rest) (n + 1) = [] := by
  unfold lineRead getNextLine
  rw [getNextLineLoop]
  simp [IStream.get]

theorem lineRead_carriage (n : Nat) : lineRead [CR] (n + 1) = [CR, 255] := by
  unfold lineRead getNextLine
  rw [getNextLineLoop]
  simp only [Bool.false_eq_true, if_false, IStream.get, if_true]
  rw [if_neg (by decide)]
  cases n with
  | zero => rfl
  | succ n => cases n <;> simp [getNextLineLoop]

theorem lineRead_pair {d : UInt8} (hd : d ≠ LF) (rest : Str) (n : Nat) :
    lineRead (CR :: d :: rest) (n + 1) = CR :: d :: lineRead rest (n - 1) := by
  unfold lineRead getNextLine
  rw [getNextLineLoop]
  simp only [Bool.false_eq_true, if_false, IStream.get, if_true, hd]
  cases n with
  | zero => rfl
  | succ n =>
    simp only []
    rw [getNextLineLoop_res]
    rfl

/-- **What a limit does to the first line**: it is cut, or read whole, or the character that the end
of the body converts to is read with it. -/
theorem lineRead_cases (body : Str) (n : Nat) :
    lineRead body n <+: firstLine body ∨ lineRead body n = firstLine body ++ [255] := by
  induction hlen : body.length using Nat.strong_induction_on generalizing body n with
  | _ k ih =>
    subst hlen
    cases n with
    | zero => exact .inl List.nil_prefix
    | succ n =>
      unfold firstLine at ih ⊢
      match body with
      | [] => exact .inr (lineRead_nil n)
      | [c] =>
        by_cases hc : c = CR
        · subst hc
          rw [lineRead_carriage]
          exact .inl (List.prefix_refl _)
        · rw [lineRead_cons hc, List.length_singleton, lineRead_cons hc]
          rcases ih 0 (by simp) [] n rfl with h | h
          · exact .inl ((List.prefix_cons_inj c).mpr h)
          · exact .inr (congrArg (c :: ·) h)
      | c :: d :: rest =>
        by_cases hc : c = CR
        · subst hc
          by_cases hd : d = LF
          · subst hd
            rw [lineRead_lineEnd]
            exact .inl List.nil_prefix
          · rw [lineRead_pair hd, List.length_cons, List.length_cons, lineRead_pair hd,
              Nat.add_sub_cancel]
            rcases ih rest.length (by simp) rest (n - 1) rfl with h | h
            · exact .inl ((List.prefix_cons_inj _).mpr ((List.prefix_cons_inj _).mpr h))
            · exact .inr (by rw [h]; rfl)
        · rw [lineRead_cons hc, List.length_cons, lineRead_cons hc]
          rcases ih (d :: rest).length (by simp) (d :: rest) n rfl with h | h
          · exact .inl ((List.prefix_cons_inj c).mpr h)
          · exact .inr (congrArg (c :: ·) h)

/-- A line without a carriage return, up to its line end or to the end of the body. -/
theorem lineRead_line {line : Str} (h : CR ∉ line) (n : Nat) :
    (∀ rest, lineRead (line ++ CR :: LF :: rest) n = line.take n) ∧
      lineRead line n = line.take n ++ if line.length < n then [255] else [] := by
  induction line generalizing n with
  | nil =>
    cases n with
    | zero => exact ⟨fun _ => rfl, rfl⟩
    | succ n => exact ⟨fun rest => lineRead_lineEnd rest n, by simp [lineRead_nil]⟩
  | cons c line ih =>
    have hc : c ≠ CR := fun he => h (he ▸ List.mem_cons_self)
    cases n with
    | zero => exact ⟨fun _ => rfl, by simp [lineRead_zero]⟩
    | succ n =>
      obtain ⟨hend, hall⟩ := ih (fun hm => h (List.mem_cons_of_mem _ hm)) n
      refine ⟨fun rest => ?_, ?_⟩
      · rw [List.cons_append, lineRead_cons hc, hend, List.take_succ_cons]
      · rw [lineRead_cons hc, hall]
        simp

/-! ## The items of a line that is cut -/

/-- Items, put together again. -/
abbrev joined (l : List Str) : Str := [amp].intercalate l

theorem joined_items (s : Str) : joined (items s) = s := List.intercalate_splitOn _

theorem joined_cons (w : Str) {l : List Str} (h : l ≠ []) : joined (w :: l) = w ++ amp :: joined l := by
  rw [joined, List.intercalate_cons_of_ne_nil h, List.append_assoc]
  rfl

/-- Around an item: those in front with their separators behind them, and the others with them in
front. -/
theorem joined_around (init : List Str) (z : Str) (more : List Str) :
    joined (init ++ z :: more) = init.flatMap (· ++ [amp]) ++ (z ++ more.flatMap (amp :: ·)) := by
  induction init with
  | nil =>
    induction more generalizing z with
    | nil => simp [joined]
    | cons m more ih =>
      have hrest : joined (m :: more) = m ++ more.flatMap (amp :: ·) := ih m
      rw [List.nil_append, joined_cons z (List.cons_ne_nil m more), hrest]
      rfl
  | cons w init ih =>
    rw [List.cons_append, joined_cons w (by simp), ih]
    simp

theorem joined_append (init : List Str) (z : Str) (more : List Str) :
    joined (init ++ z :: more) = joined (init ++ [z]) ++ more.flatMap (amp :: ·) := by
  rw [joined_around, joined_around]
  simp

theorem joined_concat (init : List Str) (x y : Str) :
    joined (init ++ [x ++ y]) = joined (init ++ [x]) ++ y := by
  rw [joined_around, joined_around]
  simp

theorem joined_prefix_length {l l' : List Str} (h : l <+: l') : (joined l).length ≤ (joined l').length := by
  obtain ⟨more, rfl⟩ := h
  rcases List.eq_nil_or_concat' l with rfl | ⟨init, z, rfl⟩
  · exact Nat.zero_le _
  · have hsplit := joined_append init z more
    rw [List.append_cons] at hsplit
    rw [hsplit, List.length_append]
    exact Nat.le_add_right _ _

/-- The items of a text that is cut: the last one is cut, and those behind it are missing. -/
theorem items_prefix {a b : Str} (h : a <+: b) :
    ∃ init x y more, items a = init ++ [x] ∧ items b = init ++ (x ++ y) :: more := by
  induction a generalizing b with
  | nil =>
    obtain ⟨y, more, hb⟩ := List.exists_cons_of_ne_nil (List.splitOn_ne_nil amp b)
    exact ⟨[], [], y, more, by simp [items], by simpa [items] using hb⟩
  | cons c a ih =>
    obtain ⟨t, rfl⟩ := h
    obtain ⟨init, x, y, more, ha, hb⟩ := ih (List.prefix_append a t)
    unfold items at ha hb ⊢
    rw [List.cons_append, List.splitOn_cons_eq_if_modifyHead, List.splitOn_cons_eq_if_modifyHead, ha, hb]
    by_cases hc : (c == amp) = true
    · exact ⟨[] :: init, x, y, more, by simp [hc], by simp [hc]⟩
    · cases init with
      | nil => exact ⟨[], c :: x, y, more, by simp [hc], by simp [hc]⟩
      | cons p init => exact ⟨(c :: p) :: init, x, y, more, by simp [hc], by simp [hc]⟩

theorem front_append {init : List Str} (h : ∀ s ∈ init, equal ∈ s) (rest : List Str) :
    front (init ++ rest) = init ++ front rest :=
  List.takeWhile_append_of_pos fun s hs => decide_eq_true (h s hs)

theorem front_short {init : List Str} (h : ∃ s ∈ init, equal ∉ s) (rest : List Str) :
    front (init ++ rest) = front init := by
  obtain ⟨s, hs, hno⟩ := h
  unfold front
  rw [List.takeWhile_append, if_neg]
  intro hlen
  have hall : front init = init := (List.takeWhile_prefix _).eq_of_length hlen
  exact hno (by simpa using List.takeWhile_eq_self_iff.mp hall s hs)

/-- The character of the end goes to the last item. -/
theorem items_surplus (s : Str) :
    ∃ init x, items s = init ++ [x] ∧ items (s ++ [255]) = init ++ [x ++ [255]] := by
  obtain ⟨init, x, y, more, hs, hend⟩ := items_prefix (List.prefix_append s [255])
  have hjoin := joined_items (s ++ [255])
  rw [hend, joined_append, joined_concat, ← hs, joined_items, List.append_assoc,
    List.append_cancel_left_eq] at hjoin
  refine ⟨init, x, hs, ?_⟩
  cases y with
  | nil =>
    cases more with
    | nil => simp at hjoin
    | cons m more => exact absurd (List.cons.inj hjoin).1 (by decide)
  | cons c y =>
    obtain ⟨rfl, hrest⟩ := List.cons.inj hjoin
    obtain ⟨rfl, hmore⟩ := List.append_eq_nil_iff.mp hrest
    cases more with
    | nil => exact hend
    | cons m more => simp at hmore

/-- A limit that reaches what counts: the line is read whole and nothing else, or it has an item at
which `tokenize` stops, and what is in front of that is read. -/
def Reaches (body : Str) (n : Nat) : Prop :=
  (lineRead body n).length = (firstLine body).length ∨
    front (items (firstLine body)) ≠ items (firstLine body) ∧
      (joined (front (items (firstLine body)))).length ≤ (lineRead body n).length

/-- For a line without a carriage return: the limit against its length, and against the length of what
is in front of the item at which `tokenize` stops. -/
theorem reaches_line {line : Str} (h : CR ∉ line) (n : Nat) :
    let stopped := front (items line) ≠ items line ∧ (joined (front (items line))).length ≤ n
    (∀ rest, Reaches (line ++ CR :: LF :: rest) n ↔ line.length ≤ n ∨ stopped) ∧
      (Reaches line n ↔ n = line.length ∨ stopped) := by
  have hle : (joined (front (items line))).length ≤ line.length := by
    have hfront := joined_prefix_length (List.takeWhile_prefix (l := items line) (equal ∈ ·))
    rwa [joined_items] at hfront
  constructor
  · intro rest
    have hfirst : firstLine (line ++ CR :: LF :: rest) = line := by
      rw [firstLine, (lineRead_line h _).1, List.take_of_length_le]
      rw [List.length_append]
      exact Nat.le_add_right _ _
    rw [Reaches, hfirst, (lineRead_line h n).1, List.length_take, min_eq_right_iff, le_min_iff,
      and_iff_left hle]
  · have hfirst : firstLine line = line := by
      rw [firstLine, (lineRead_line h _).2]
      simp
    rw [Reaches, hfirst, (lineRead_line h n).2, List.length_append, List.length_take]
    by_cases hn : line.length < n
    · rw [if_pos hn, min_eq_right hn.le, List.length_singleton]
      refine or_congr (by omega) (and_congr_right fun _ => by omega)
    · rw [if_neg hn, min_eq_left (not_lt.mp hn), List.length_nil]
      rfl

theorem front_cons_of_mem {x : Str} (h : equal ∈ x) (more : List Str) : front (x :: more) = x :: front more :=
  List.takeWhile_cons_of_pos (by simpa using h)

theorem front_cons_of_not_mem {x : Str} (h : equal ∉ x) (more : List Str) : front (x :: more) = [] :=
  List.takeWhile_cons_of_neg (by simpa using h)

/-- Such a limit changes nothing. -/
theorem Reaches.front {body : Str} {n : Nat} (h : Reaches body n) :
    front (items (lineRead body n)) = front (items (firstLine body)) := by
  rcases lineRead_cases body n with hfront | hsurplus
  · rcases h with hlen | ⟨-, hlen⟩
    · rw [hfront.eq_of_length hlen]
    obtain ⟨init, x, y, more, hread, hline⟩ := items_prefix hfront
    have hlength : (lineRead body n).length = (joined (init ++ [x])).length := by
      rw [← hread, joined_items]
    rw [hread, hline]
    by_cases hinit : ∃ s ∈ init, equal ∉ s
    · rw [front_short hinit, front_short hinit]
    push Not at hinit
    rw [front_append hinit, front_append hinit]
    by_cases hxy : equal ∈ x ++ y
    · -- the item that is cut counts, so nothing of it is missing, and none behind it counts
      rw [hline, front_append hinit, front_cons_of_mem hxy, joined_append, joined_concat, hlength] at hlen
      simp only [List.length_append] at hlen
      have hy : y = [] := List.length_eq_zero_iff.mp (by omega)
      have hmore : FormFields.front more = [] := by
        cases hm : FormFields.front more with
        | nil => rfl
        | cons m rest =>
          rw [hm] at hlen
          simp only [List.flatMap_cons, List.length_append, List.length_cons] at hlen
          omega
      rw [hy, List.append_nil] at hxy ⊢
      rw [front_cons_of_mem hxy, front_cons_of_mem hxy, hmore]
      rfl
    · have hx : equal ∉ x := fun hm => hxy (List.mem_append_left _ hm)
      rw [front_cons_of_not_mem hxy, front_cons_of_not_mem hx]
  · rcases h with hlen | ⟨hstop, -⟩
    · rw [hsurplus, List.length_append, List.length_singleton] at hlen
      omega
    obtain ⟨init, x, hline, hread⟩ := items_surplus (firstLine body)
    rw [hline] at hstop
    rw [hsurplus, hread, hline]
    by_cases hinit : ∃ s ∈ init, equal ∉ s
    · rw [front_short hinit, front_short hinit]
    push Not at hinit
    rw [front_append hinit] at hstop
    have hx : equal ∉ x := fun hm => hstop (by rw [front_cons_of_mem hm]; rfl)
    have hx' : equal ∉ x ++ [255] := by simpa [hx] using (by decide : equal ≠ 255)
    rw [front_append hinit, front_append hinit, front_cons_of_not_mem hx, front_cons_of_not_mem hx']

/-! ## The fields that are read -/

/-- The fields that are stored with a limit. -/
def fieldsRead (body : Str) (n : Nat) : List (Str × Str) := fieldsOf (front (items (lineRead body n)))

/-- A body whose fields tell by themselves what was read of it: the names differ, and no NUL ends a
name or a value. -/
structure Telling (body : Str) : Prop where
  no_nul : 0 ∉ firstLine body
  names : ((fieldsRead body body.length).map Prod.fst).Nodup

theorem field?_mk {k : Str} (hk : equal ∉ k) (v : Str) : field? (k ++ equal :: v) = some (k, v) := by
  have hall : ∀ c ∈ k, decide (c ≠ equal) = true := fun c hc => by
    simpa using fun he : c = equal => hk (he ▸ hc)
  rw [field?, if_pos (by simp), List.takeWhile_append_of_pos hall, List.dropWhile_append_of_pos hall]
  simp

theorem field?_append {x : Str} (h : equal ∈ x) (y : Str) :
    ∃ k v, field? x = some (k, v) ∧ field? (x ++ y) = some (k, v ++ y) := by
  obtain ⟨hx, hk⟩ := FormFields.field_split h
  refine ⟨_, _, if_pos h, ?_⟩
  have hmk := field?_mk hk ((x.dropWhile (· ≠ equal)).tail ++ y)
  rwa [← List.cons_append, ← List.append_assoc, ← hx] at hmk

theorem mem_fieldsOf_clean {l : List Str} (h : ∀ s ∈ l, 0 ∉ s) {kv : Str × Str} (hkv : kv ∈ fieldsOf l) :
    0 ∉ kv.1 ∧ 0 ∉ kv.2 := by
  obtain ⟨s, hs, hfield⟩ := List.mem_filterMap.mp hkv
  unfold field? at hfield
  split_ifs at hfield with heq
  obtain ⟨hsplit, -⟩ := FormFields.field_split heq
  obtain rfl := Option.some.inj hfield
  have hclean := h s hs
  rw [hsplit, List.mem_append, List.mem_cons, not_or, not_or] at hclean
  exact ⟨hclean.1, hclean.2.2⟩

theorem stored_inj {a b : Str} (ha : 0 ∉ a) (hb : 0 ∉ b) (h : stored a = stored b) : a = b := by
  rwa [FormFields.stored_inj_iff, cstr_of_no_nul ha, cstr_of_no_nul hb] at h

/-- A list of fields without a NUL and with different names. -/
structure Listed (l : List (Str × Str)) : Prop where
  clean : ∀ kv ∈ l, 0 ∉ kv.1 ∧ 0 ∉ kv.2
  names : (l.map Prod.fst).Nodup

theorem Listed.stored {l : List (Str × Str)} (h : Listed l) {k v : Str} (hkv : (k, v) ∈ l) :
    (insertAll l ∅)[stored k]? = some (stored v) := by
  obtain ⟨before, after, rfl⟩ := List.append_of_mem hkv
  have hnames := h.names
  rw [List.map_append, List.map_cons] at hnames
  obtain ⟨hk, -⟩ := List.nodup_cons.mp (List.nodup_append.mp hnames).2.1
  refine FormFields.insertAll_last (fun kv hmem kv' hmem' => stored_inj (h.clean kv hmem).1
    (h.clean kv' hmem').1) ⟨before, after, rfl, fun kv hmem he => hk ?_⟩ ∅
  exact List.mem_map.mpr ⟨kv, hmem, he⟩

theorem Listed.missing {l : List (Str × Str)} (h : Listed l) {k : Str} (hk : 0 ∉ k)
    (hnot : k ∉ l.map Prod.fst) : (insertAll l ∅)[FormFields.stored k]? = none := by
  rw [FormFields.insertAll_getElem?_of_ne]
  · simp
  · exact fun kv hkv he => hnot (List.mem_map.mpr ⟨kv, hkv, stored_inj (h.clean kv hkv).1 hk he⟩)

theorem Listed.append_left {a b : List (Str × Str)} (h : Listed (a ++ b)) : Listed a :=
  ⟨fun kv hkv => h.clean kv (List.mem_append_left _ hkv),
    h.names.sublist ((List.sublist_append_left a b).map _)⟩

/-- A field that is missing is missed. -/
theorem Listed.insertAll_ne {init rest : List (Str × Str)} {k v : Str} (h : Listed (init ++ (k, v) :: rest)) :
    insertAll init ∅ ≠ insertAll (init ++ (k, v) :: rest) ∅ := by
  intro hsame
  have hmem : (k, v) ∈ init ++ (k, v) :: rest := by simp
  have hnames := h.names
  rw [List.map_append, List.map_cons] at hnames
  have hout := h.append_left.missing (h.clean _ hmem).1 fun hk =>
    (List.nodup_append.mp hnames).2.2 k hk k List.mem_cons_self rfl
  rw [hsame, h.stored hmem] at hout
  cases hout

/-- So is a part of a value, and what stands behind it. -/
theorem Listed.insertAll_cut {init rest : List (Str × Str)} {k v y : Str}
    (h : Listed (init ++ (k, v ++ y) :: rest))
    (hsame : insertAll (init ++ [(k, v)]) ∅ = insertAll (init ++ (k, v ++ y) :: rest) ∅) :
    y = [] ∧ rest = [] := by
  have hmem : (k, v ++ y) ∈ init ++ (k, v ++ y) :: rest := by simp
  obtain ⟨hk, hvy⟩ := h.clean _ hmem
  have hv : 0 ∉ v := fun hm => hvy (List.mem_append_left _ hm)
  have hnames : ((init ++ [(k, v)]).map Prod.fst).Nodup := by
    refine h.names.sublist ?_
    rw [List.map_append, List.map_append, List.map_cons, List.map_cons]
    exact ((List.nil_sublist _).cons_cons k).append_left _
  have hcut : Listed (init ++ [(k, v)]) := by
    refine ⟨fun kv hkv => ?_, hnames⟩
    rcases List.mem_append.mp hkv with hkv | hkv
    · exact h.clean kv (List.mem_append_left _ hkv)
    · rw [List.mem_singleton.mp hkv]
      exact ⟨hk, hv⟩
  have hvalue := hcut.stored (k := k) (v := v) (by simp)
  rw [hsame, h.stored hmem] at hvalue
  have hy : y = [] := by
    have heq := stored_inj hvy hv (Option.some.inj hvalue)
    simpa using heq
  subst hy
  rw [List.append_nil] at h hsame
  refine ⟨rfl, ?_⟩
  cases rest with
  | nil => rfl
  | cons kv rest =>
    rw [List.append_cons init (k, v) (kv :: rest)] at h hsame
    exact absurd hsame h.insertAll_ne

/-- A field of an item, with more behind it. -/
theorem fieldsOf_concat (init : List Str) {x : Str} {kv : Str × Str} (h : field? x = some kv) (more : List Str) :
    fieldsOf (init ++ x :: more) = fieldsOf init ++ kv :: fieldsOf more := by
  simp [fieldsOf, List.filterMap_append, h]

theorem fields_clean {s : Str} (h : 0 ∉ s) :
    ∀ kv ∈ fieldsOf (front (items s)), 0 ∉ kv.1 ∧ 0 ∉ kv.2 := by
  intro kv hkv
  refine mem_fieldsOf_clean (fun item hitem hm => h ?_) hkv
  exact (mem_of_splitOn ((List.takeWhile_sublist _).subset hitem) hm).1

theorem Telling.listed {body : Str} (h : Telling body) :
    Listed (fieldsOf (front (items (firstLine body)))) := ⟨fields_clean h.no_nul, h.names⟩

theorem front_ne {l : List Str} {s : Str} (hs : s ∈ l) (hno : equal ∉ s) : front l ≠ l := fun hall =>
  hno (by simpa using List.takeWhile_eq_self_iff.mp hall s hs)

/-- A line that is cut behind items that count: when the fields are the same, the item of the cut and
those behind it do not count, or nothing of the line is missing. -/
theorem reaches_of_item {body : Str} (ht : Telling body) {n : Nat} {init : List Str} {x y : Str}
    {more : List Str} (hinit : ∀ s ∈ init, equal ∈ s) (hread : items (lineRead body n) = init ++ [x])
    (hline : items (firstLine body) = init ++ (x ++ y) :: more)
    (h : insertAll (fieldsRead body n) ∅ = insertAll (fieldsRead body body.length) ∅) : Reaches body n := by
  have hlength : (lineRead body n).length = (joined (init ++ [x])).length := by
    rw [← hread, joined_items]
  have hlisted := ht.listed
  have hwhole : fieldsRead body body.length = fieldsOf (front (items (firstLine body))) := rfl
  have hstops {s : Str} (hs : s ∈ init ++ (x ++ y) :: more) (hno : equal ∉ s) :
      front (items (firstLine body)) ≠ items (firstLine body) := front_ne (by rwa [hline]) hno
  by_cases hxy : equal ∈ x ++ y
  · obtain ⟨kv, hkv⟩ : ∃ kv, field? (x ++ y) = some kv := ⟨_, if_pos hxy⟩
    have hfields : fieldsOf (front (items (firstLine body))) =
        fieldsOf init ++ kv :: fieldsOf (FormFields.front more) := by
      rw [hline, front_append hinit, front_cons_of_mem hxy, fieldsOf_concat init hkv]
    rw [hwhole, hfields, fieldsRead, hread, front_append hinit] at h
    rw [hfields] at hlisted
    by_cases hx : equal ∈ x
    · obtain ⟨k, v, hfield, hfield'⟩ := field?_append hx y
      obtain rfl := Option.some.inj (hfield'.symm.trans hkv)
      rw [front_cons_of_mem hx, fieldsOf_concat init hfield] at h
      obtain ⟨rfl, hrest⟩ := hlisted.insertAll_cut h
      cases more with
      | nil =>
        left
        rw [hlength, ← joined_items (firstLine body), hline, List.append_nil]
      | cons m more =>
        have hm : equal ∉ m := by
          intro hm
          rw [front_cons_of_mem hm, fieldsOf, List.filterMap_cons, field?, if_pos hm] at hrest
          cases hrest
        refine .inr ⟨hstops (by simp) hm, ?_⟩
        rw [hline, front_append hinit, front_cons_of_mem hxy, front_cons_of_not_mem hm, List.append_nil,
          hlength]
    · rw [front_cons_of_not_mem hx, List.append_nil] at h
      exact absurd h hlisted.insertAll_ne
  · refine .inr ⟨hstops (by simp) hxy, ?_⟩
    rw [hline, front_append hinit, front_cons_of_not_mem hxy, List.append_nil, hlength]
    exact joined_prefix_length (List.prefix_append _ _)

/-- A line that is cut. -/
theorem reaches_of_cut {body : Str} (ht : Telling body) {n : Nat} (hfront : lineRead body n <+: firstLine body)
    (h : insertAll (fieldsRead body n) ∅ = insertAll (fieldsRead body body.length) ∅) : Reaches body n := by
  obtain ⟨init, x, y, more, hread, hline⟩ := items_prefix hfront
  by_cases hinit : ∃ s ∈ init, equal ∉ s
  · -- `tokenize` stops in front of the cut
    obtain ⟨s, hs, hno⟩ := hinit
    have hmem : s ∈ items (firstLine body) := by
      rw [hline]
      exact List.mem_append_left _ hs
    refine .inr ⟨front_ne hmem hno, ?_⟩
    rw [hline, front_short ⟨s, hs, hno⟩, ← joined_items (lineRead body n), hread]
    exact joined_prefix_length ((List.takeWhile_prefix _).trans (List.prefix_append _ _))
  · push Not at hinit
    exact reaches_of_item ht hinit hread hline h

/-- A line that is read with the character of the end: the last item has it, and does not count. -/
theorem reaches_of_surplus {body : Str} (ht : Telling body) {n : Nat}
    (hsurplus : lineRead body n = firstLine body ++ [255])
    (h : insertAll (fieldsRead body n) ∅ = insertAll (fieldsRead body body.length) ∅) : Reaches body n := by
  obtain ⟨init, x, hline, hread⟩ := items_surplus (firstLine body)
  refine .inr ⟨fun hall => ?_, ?_⟩
  · have hmem : ∀ s ∈ init ++ [x], equal ∈ s := by
      intro s hs
      rw [← hline] at hs
      simpa using List.takeWhile_eq_self_iff.mp hall s hs
    have hinit : ∀ s ∈ init, equal ∈ s := fun s hs => hmem s (List.mem_append_left _ hs)
    have hx : equal ∈ x := hmem x (by simp)
    obtain ⟨k, v, hfield, hfield'⟩ := field?_append hx [255]
    have hread' : fieldsRead body n = fieldsOf init ++ [(k, v ++ [255])] := by
      rw [fieldsRead, hsurplus, hread, front_append hinit, front_cons_of_mem (List.mem_append_left _ hx),
        fieldsOf_concat init hfield']
      rfl
    have hwhole : fieldsOf (front (items (firstLine body))) = fieldsOf init ++ [(k, v)] := by
      rw [hall, hline, fieldsOf_concat init hfield]
      rfl
    have hlisted : Listed (fieldsOf init ++ [(k, v ++ [255])]) := by
      have hnames := ht.listed.names
      rw [hwhole] at hnames
      refine ⟨?_, by simpa using hnames⟩
      rw [← hread', fieldsRead]
      refine fields_clean ?_
      rw [hsurplus]
      simpa using ht.no_nul
    have hsame : insertAll (fieldsOf init ++ [(k, v)]) ∅ = insertAll (fieldsOf init ++ [(k, v ++ [255])]) ∅ := by
      rw [← hwhole, ← hread']
      exact h.symm
    obtain ⟨hnil, -⟩ := hlisted.insertAll_cut hsame
    cases hnil
  · have hle := joined_prefix_length (List.takeWhile_prefix (l := items (firstLine body)) (equal ∈ ·))
    rw [joined_items] at hle
    rw [hsurplus, List.length_append]
    exact hle.trans (Nat.le_add_right _ _)

/-- **Of a telling body another limit stores something else.** -/
theorem reaches_of_fields {body : Str} (ht : Telling body) {n : Nat}
    (h : insertAll (fieldsRead body n) ∅ = insertAll (fieldsRead body body.length) ∅) : Reaches body n :=
  (lineRead_cases body n).elim (fun hfront => reaches_of_cut ht hfront h)
    fun hsurplus => reaches_of_surplus ht hsurplus h

/-! ## The form without a length -/

abbrev urlencoded : Str := str "application/x-www-form-urlencoded"

/-- The fields in the first line of a body, as far as `n` bytes go. -/
def spelledFields (body : Str) (n : Nat) : List Str := pieces '&'.toUInt8 (lineRead body n) []

/-- The form as a function of the content type and the body. -/
def unframedForm (req : HTTPServerRequest) (body contentType : Str) : Decoded :=
  if startsWith contentType urlencoded then
    match formFields (spelledFields body body.length) req.POST with
    | .ok POST => (.ok true, { req with POST := POST })
    | .error e => (.error (.raised e), req)
  else match boundary contentType with
    | some bnd =>
      match parseMultipartData req ⟨body, false⟩ bnd with
      | .ok req => (.ok true, req)
      | .error e => (.error (.raised e), req)
    | none => (.ok true, { req with content := body })

/-- What is seen of a form: the fault, the fields, the files and the content. -/
def seenForm (r : Decoded) : Option Fault × Dictionary × List UploadedFile × Str :=
  (match r.1 with
    | .error f => some f
    | .ok _ => none, r.2.POST, r.2.FILE, r.2.content)

/-- A length as `stoi` reads it spoils nothing: it reaches what counts of a form, and is the length of
a body that is no form, or 0, where the content stays the body. -/
structure Harmless (n : Int) (contentType body : Str) : Prop where
  fields : startsWith contentType urlencoded = true → Reaches body n.toNat
  content : contentType ≠ [] → startsWith contentType urlencoded = false →
    boundary contentType = none → n = 0 ∨ n = body.length

/-- Where the harm that a length does is seen: a form is read into no fields, and its own are telling. -/
def Noticed (contentType body : Str) (POST : Dictionary) : Prop :=
  startsWith contentType urlencoded = true → POST = ∅ ∧ Telling body

theorem formFields_spelled (body : Str) (n : Nat) (POST : Dictionary) :
    formFields (spelledFields body n) POST = .ok (insertAll (fieldsRead body n) POST) := by
  rw [spelledFields, pieces_splitOn, FormFields.formFields_eq]
  exact congrArg (fun l => Except.ok (insertAll (fieldsOf (front l)) POST)) (modifyHead_same _)

theorem read_eq_iff (body : Str) (n : Nat) : (IStream.read ⟨body, false⟩ n).1 = body ↔
    n = body.length := by
  have hlen : (IStream.read ⟨body, false⟩ n).1.length = n := by
    simp only [IStream.read, Bool.false_eq_true, if_false, List.length_append, List.length_take,
      List.length_replicate]
    omega
  constructor
  · intro h
    rw [← hlen, h]
  · rintro rfl
    simp [IStream.read]

/-- The content of a body that is no form. -/
theorem readContent_body_iff {n : Int} (h : -2 ^ 31 ≤ n ∧ n < 2 ^ 31) (body : Str) :
    readContent (n % 2 ^ 64).toNat ⟨body, false⟩ = .ok body ↔ n = body.length := by
  have hok := readContent_ok_iff h ⟨body, false⟩
  by_cases hneg : 0 ≤ n
  · obtain ⟨content, hc⟩ := hok.mpr hneg
    have hmod : (n % 2 ^ 64).toNat = n.toNat := by rw [Int.emod_eq_of_lt hneg (by omega)]
    have hread : content = (IStream.read ⟨body, false⟩ n.toNat).1 := by
      unfold readContent at hc
      split at hc
      · cases hc
      · rw [← hmod]
        exact (Except.ok.inj hc).symm
    rw [hc, Except.ok.injEq, hread, read_eq_iff]
    omega
  · have hne : n ≠ body.length := by omega
    refine ⟨fun hbody => absurd (hok.mp ⟨body, hbody⟩) hneg, fun h => absurd h hne⟩

theorem readForm_urlencoded {req : HTTPServerRequest} {contentType : Str} (body : Str) (n : Int)
    (hform : startsWith contentType urlencoded = true) :
    readForm req ⟨body, false⟩ n contentType =
      (.ok true, { req with POST := insertAll (fieldsRead body n.toNat) req.POST }) := by
  have hne : contentType ≠ [] := by
    rintro rfl
    exact absurd hform (by decide)
  unfold readForm
  rw [if_neg (fun h => hne h.1), if_pos hform]
  exact congrArg (fun r => match r with
    | .ok POST => ((.ok true, { req with POST := POST }) : Decoded)
    | .error e => (.error (.raised e), req)) (formFields_spelled body n.toNat req.POST)

theorem readForm_multipart {req : HTTPServerRequest} {contentType body bnd : Str} (n : Int)
    (hform : startsWith contentType urlencoded = false) (hb : boundary contentType = some bnd) :
    readForm req ⟨body, false⟩ n contentType = unframedForm req body contentType := by
  have hne : contentType ≠ [] := by
    rintro rfl
    rw [boundary_nil] at hb
    cases hb
  unfold readForm unframedForm
  rewrite [if_neg (fun h => hne h.1), if_neg (Bool.eq_false_iff.mp hform),
    if_neg (Bool.eq_false_iff.mp hform), hb]
  rfl

theorem readForm_other {req : HTTPServerRequest} {contentType body : Str} {n : Int}
    (h : -2 ^ 31 ≤ n ∧ n < 2 ^ 31) (hform : startsWith contentType urlencoded = false)
    (hb : boundary contentType = none) :
    readForm req ⟨body, false⟩ n contentType =
      if n = 0 then (.ok true, req)
      else if contentType = [] then (.ok false, req)
      else match readContent (n % 2 ^ 64).toNat ⟨body, false⟩ with
        | .ok content => (.ok true, { req with content := content, contentType := contentType })
        | .error e => (.error (.raised e), req) := by
  have hzero : (n % 2 ^ 64).toNat = 0 ↔ n = 0 := by omega
  unfold readForm
  simp only [Nat.pos_iff_ne_zero, ne_eq, hzero]
  rw [if_neg (Bool.eq_false_iff.mp hform), hb]
  by_cases hn : n = 0
  · simp [hn]
  by_cases hempty : contentType = []
  · simp [hn, hempty]
  · have hleft := fun h : contentType = [] ∧ ¬n = 0 => hempty h.1
    exact (if_neg hleft).trans ((if_neg hn).trans ((if_neg hn).trans (if_neg hempty)).symm)

/-- **The form of a length** is the form of the body where the length is harmless; and only there, where
its harm is seen. -/
theorem readForm_seen {n : Int} (h : -2 ^ 31 ≤ n ∧ n < 2 ^ 31) (req : HTTPServerRequest)
    (contentType body : Str) (hcontent : req.content = body) :
    (Harmless n contentType body → seenForm (readForm req ⟨body, false⟩ n contentType) =
      seenForm (unframedForm req body contentType)) ∧
    (Noticed contentType body req.POST → seenForm (readForm req ⟨body, false⟩ n contentType) =
      seenForm (unframedForm req body contentType) → Harmless n contentType body) := by
  cases hform : startsWith contentType urlencoded with
  | true =>
    rw [readForm_urlencoded body n hform, unframedForm, if_pos hform, formFields_spelled]
    constructor
    · intro hharm
      rw [fieldsRead, (hharm.fields hform).front]
      rfl
    · intro hseen hsame
      obtain ⟨hPOST, htelling⟩ := hseen hform
      refine ⟨fun _ => reaches_of_fields htelling ?_, fun _ hno => ?_⟩
      · rw [← hPOST]
        exact congrArg (·.2.1) hsame
      · rw [hform] at hno
        cases hno
  | false =>
    have hfields : startsWith contentType urlencoded = true → Reaches body n.toNat := by
      intro hno
      rw [hform] at hno
      cases hno
    cases hb : boundary contentType with
    | some bnd =>
      rw [readForm_multipart n hform hb]
      refine ⟨fun _ => rfl, fun _ _ => ⟨hfields, fun _ _ hno => ?_⟩⟩
      rw [hb] at hno
      cases hno
    | none =>
      have hharm : Harmless n contentType body ↔ (contentType ≠ [] → n = 0 ∨ n = body.length) :=
        ⟨fun h hne => h.content hne hform hb, fun h => ⟨hfields, fun hne _ _ => h hne⟩⟩
      have hiff : seenForm (readForm req ⟨body, false⟩ n contentType) =
          seenForm (unframedForm req body contentType) ↔ Harmless n contentType body := by
        rw [hharm, readForm_other h hform hb, unframedForm, if_neg (Bool.eq_false_iff.mp hform), hb]
        by_cases hn : n = 0
        · simp [hn, seenForm, hcontent]
        by_cases hempty : contentType = []
        · simp [hn, hempty, seenForm, hcontent]
        rw [if_neg hn, if_neg hempty]
        have hbody := readContent_body_iff h body
        cases hr : readContent (n % 2 ^ 64).toNat ⟨body, false⟩ with
        | error e =>
          rw [hr] at hbody
          simp [seenForm, hn, hempty, ← hbody]
        | ok content =>
          rw [hr, Except.ok.injEq] at hbody
          simp [seenForm, hn, hempty, ← hbody]
      exact ⟨hiff.mpr, fun _ => hiff.mp⟩

/-! ## The decoder -/

/-- `decode_message` with the form of the body. -/
def decodeUnframed (rp : RequestParser) (req : HTTPServerRequest) : Decoded :=
  Decoded.andThen (parseUrl (startRequest rp req) rp.fields.url) fun req =>
    Decoded.andThen (parseCookies req) fun req =>
      unframedForm req rp.fields.body (req.getServerAttribute (str "Content-Type"))

/-- The framing does not matter to a message: it gives the form of its body, and a body that is no
form is the content. -/
def FramingFree (rp : RequestParser) (req : HTTPServerRequest) : Prop :=
  seenForm (rp.decodeMessage req) = seenForm (rp.decodeUnframed req) ∧
    (startsWith ((startRequest rp req).getServerAttribute (str "Content-Type")) urlencoded = false →
      boundary ((startRequest rp req).getServerAttribute (str "Content-Type")) = none →
      (rp.decodeMessage req).2.content = rp.fields.body)

/-- The target and the cookies of a message are decoded, so that its body is looked at. -/
def FrontDecoded (rp : RequestParser) (req : HTTPServerRequest) : Prop :=
  (∃ parts, urlParts rp.fields.url = .ok (some parts)) ∧
    CookiesAccepted (startRequest rp req).SERVER

/-- `stoi` reads the length the message declares, and it is harmless. -/
def HarmlesslyFramed (rp : RequestParser) (req : HTTPServerRequest) : Prop :=
  ∃ n, stoi ((startRequest rp req).getServerAttribute (str "Content-Length") (str "0")) = .ok n ∧
    Harmless n ((startRequest rp req).getServerAttribute (str "Content-Type")) rp.fields.body

/-- The harm of a length would be seen in this message. -/
def Tells (rp : RequestParser) (req : HTTPServerRequest) : Prop :=
  Noticed ((startRequest rp req).getServerAttribute (str "Content-Type")) rp.fields.body req.POST

theorem stoi_error {s : Str} {e : Exception} (h : stoi s = .error e) :
    e = .invalidArgument (str "stoi") ∨ e = .outOfRange (str "stoi") := by
  unfold stoi at h
  simp only at h
  generalize (if (splitSign (s.dropWhile isspace)).1 = true then
    -(leadingNumber (splitSign (s.dropWhile isspace)).2 : Int)
    else leadingNumber (splitSign (s.dropWhile isspace)).2) = v at h
  split at h
  · cases h
    exact .inl rfl
  · split at h
    · cases h
      exact .inr rfl
    · cases h

theorem parseMultipartData_error {req : HTTPServerRequest} {strm : IStream} {bnd : Str}
    {e : Exception} (h : parseMultipartData req strm bnd = .error e) :
    e = .outOfRange (str "basic_string::compare") := by
  unfold parseMultipartData compareAt at h
  simp only at h
  split at h
  · cases h
  · split_ifs at h
    · cases h
      rfl
    · cases hb : (List.take bnd.length (List.drop 2 (getNextLine strm).1) == bnd) with
      | false =>
        rw [hb] at h
        cases h
      | true =>
        rw [hb] at h
        obtain ⟨req', hok⟩ := multipartLoop_ok bnd req (getNextLine strm).2
        cases hok.symm.trans h

/-- What `stoi` raises is not what the form itself may raise. -/
theorem stoi_ne_unframed {s : Str} {e : Exception} (h : stoi s = .error e)
    (req : HTTPServerRequest) (contentType body : Str) :
    (unframedForm req body contentType).1 ≠ .error (.raised e) := by
  intro hraised
  unfold unframedForm at hraised
  split at hraised
  · obtain ⟨POST, hP⟩ := formFields_ok (spelledFields body body.length) req.POST
    rw [hP] at hraised
    cases hraised
  · cases hb : boundary contentType with
    | none =>
      rw [hb] at hraised
      cases hraised
    | some bnd =>
      rw [hb] at hraised
      simp only at hraised
      cases hp : parseMultipartData req ⟨body, false⟩ bnd with
      | ok req' =>
        rw [hp] at hraised
        cases hraised
      | error e' =>
        rw [hp] at hraised
        obtain rfl := parseMultipartData_error hp
        cases hraised
        rcases stoi_error h with he | he
        · cases he
        · exact absurd (Exception.outOfRange.inj he) (by decide)

/-- The form of the declared length, where the request has the body as its content. -/
theorem parseFormData_seen (req : HTTPServerRequest) (body : Str) (hcontent : req.content = body) :
    let contentType := req.getServerAttribute (str "Content-Type")
    let harmless := ∃ n, stoi (req.getServerAttribute (str "Content-Length") (str "0")) = .ok n ∧
      Harmless n contentType body
    (harmless → seenForm (parseFormData req ⟨body, false⟩) = seenForm (unframedForm req body contentType)) ∧
    (Noticed contentType body req.POST →
      seenForm (parseFormData req ⟨body, false⟩) = seenForm (unframedForm req body contentType) → harmless) := by
  unfold parseFormData
  cases hstoi : stoi (req.getServerAttribute (str "Content-Length") (str "0")) with
  | error e =>
    have hne := stoi_ne_unframed hstoi req (req.getServerAttribute (str "Content-Type")) body
    refine ⟨fun hharm => ?_, fun _ hseen => absurd ?_ hne⟩
    · obtain ⟨n, hn, -⟩ := hharm
      cases hn
    have hfault := congrArg Prod.fst hseen
    unfold seenForm at hfault
    simp only at hfault
    split at hfault
    · rename_i f hf
      rw [hf, Option.some.inj hfault]
    · cases hfault
  | ok n =>
    simp only [Except.ok.injEq, exists_eq_left']
    exact readForm_seen (stoi_bounds hstoi) req _ body hcontent

/-- What comes behind the target and the cookies of a `POST`. -/
theorem formPart_seen (req : HTTPServerRequest) (body : Str) (hpost : req.method = str "POST")
    (hcontent : req.content = body) :
    let r := if req.method = str "POST" then parseFormData req ⟨body, false⟩ else (.ok true, req)
    let contentType := req.getServerAttribute (str "Content-Type")
    let free := seenForm r = seenForm (unframedForm req body contentType) ∧
      (startsWith contentType urlencoded = false → boundary contentType = none → r.2.content = body)
    let harmless := ∃ n, stoi (req.getServerAttribute (str "Content-Length") (str "0")) = .ok n ∧
      Harmless n contentType body
    (harmless → free) ∧ (Noticed contentType body req.POST → free → harmless) := by
  simp only [if_pos hpost]
  obtain ⟨hfree, hharmless⟩ := parseFormData_seen req body hcontent
  refine ⟨fun h => ⟨hfree h, fun hform hb => ?_⟩, fun hseen h => hharmless hseen h.1⟩
  have hsame := hfree h
  rw [unframedForm, if_neg (Bool.eq_false_iff.mp hform), hb] at hsame
  exact congrArg (·.2.2.2) hsame

/-- **The framing does not matter** to a `POST` whose target or cookies are not decoded, or whose
`Content-Length`, by that spelling and read by `stoi`, is harmless; and it matters to every other one
whose fields tell. -/
theorem decode_framingFree_iff (rp : RequestParser) (req : HTTPServerRequest)
    (hpost : rp.parser.method = .POST) :
    ((FrontDecoded rp req → HarmlesslyFramed rp req) → FramingFree rp req) ∧
    (Tells rp req → (FramingFree rp req ↔ (FrontDecoded rp req → HarmlesslyFramed rp req))) := by
  have hboth : ((FrontDecoded rp req → HarmlesslyFramed rp req) → FramingFree rp req) ∧
      (Tells rp req → FramingFree rp req → FrontDecoded rp req → HarmlesslyFramed rp req) := by
    unfold Tells FramingFree FrontDecoded HarmlesslyFramed decodeMessage decodeUnframed
    rcases parseUrl_cases (startRequest rp req) rp.fields.url with
      ⟨f, hu, hp⟩ | ⟨hu, hp⟩ | ⟨path, query, GET, hu, hp⟩
    · rw [hp, hu]
      simp [Decoded.andThen, startRequest]
    · rw [hp, hu]
      simp [Decoded.andThen, startRequest]
    · obtain ⟨b, COOKIE, hc, hb⟩ := parseCookies_ok
        { startRequest rp req with path := path, query := query, GET := GET }
      have hb' : b = true ↔ CookiesAccepted (startRequest rp req).SERVER := hb
      rw [hp, hu, ← hb']
      simp only [Decoded.andThen, hc]
      cases b with
      | false => simp [startRequest]
      | true =>
        simp only [Except.ok.injEq, Option.some.injEq, exists_eq', true_and, true_imp_iff]
        exact formPart_seen { startRequest rp req with
          path := path, query := query, GET := GET, COOKIE := COOKIE } rp.fields.body
          ((methodString_post rp.parser.method).mpr hpost) rfl
  exact ⟨hboth.1, fun htells => ⟨hboth.2 htells, hboth.1⟩⟩

/-- A length that is the length of the body is harmless. -/
theorem harmless_length (contentType body : Str) : Harmless body.length contentType body :=
  ⟨fun _ => .inl (by rw [Int.toNat_natCast]; rfl), fun _ _ _ => .inr rfl⟩

/-! ## One body in two framings -/

def sizedForm : Str :=
  str "POST / HTTP/1.1\r\nContent-Type: application/x-www-form-urlencoded\r\n" ++
    str "Content-Length: 3\r\n\r\na=1"

def chunkedForm : Str :=
  str "POST / HTTP/1.1\r\nContent-Type: application/x-www-form-urlencoded\r\n" ++
    str "Transfer-Encoding: chunked\r\n\r\n3\r\na=1\r\n0\r\n\r\n"

/-- The length of the body is harmless. -/
theorem sizedForm_framingFree : FramingFree (feed (new false) [sizedForm]).2 .init :=
  (decode_framingFree_iff _ _ (by decide +kernel)).1 fun _ =>
    ⟨_, by decide +kernel, harmless_length _ _⟩

/-- **A chunked form is lost**: the parser delivers the same body in both framings, and the
decoder finds the field in one of them. -/
theorem chunkedForm_lost :
    (feed (new false) [sizedForm]).1 = .ok ∧ (feed (new false) [chunkedForm]).1 = .ok ∧
    (feed (new false) [sizedForm]).2.fields.body = str "a=1" ∧
    (feed (new false) [chunkedForm]).2.fields.body = str "a=1" ∧
    (decodeMessage (feed (new false) [sizedForm]).2 .init).2.POST[str "a"]? = some (str "1") ∧
    (decodeMessage (feed (new false) [chunkedForm]).2 .init).2.POST[str "a"]? = none := by
  decide +kernel

end Wsrv.RequestParser
