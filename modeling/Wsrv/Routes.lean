import Wsrv.Gpx
import Wsrv.Lib.Wkt

/-!
# The lines of a route

`gpxToWKTLines` writes the segments of all tracks that have at least two points
as one `MULTILINESTRING`.  The text of a number is one symbol.  When there is no
such segment the brackets have nothing between them, where the grammar has the
word `EMPTY`.
-/

namespace Wsrv.Routes

open Wkt

variable {L : GpxLibrary}

/-! ## The three loops -/

/-- The stream, and `is_first_seg` or `is_first_pt`. -/
abbrev Listing (L : GpxLibrary) := Text L.Double × Bool

def writePoint (ls : Listing L) (pt : TrackPoint L) : Listing L :=
  (ls.1 ++ (if !ls.2 then chars "," else []) ++ [.num pt.lat, .char ' ', .num pt.lon], false)

def writeSegment (ls : Listing L) (seg : TrackSegment L) : Listing L :=
  if seg.points.length < 2 then ls
  else
    let out := ls.1 ++ (if !ls.2 then chars "," else []) ++ chars "("
    ((seg.points.foldl writePoint (out, true)).1 ++ chars ")", false)

/-- What `gpxToWKTLines` returns; it also leaves the text in a file that nothing reads. -/
def gpxToWKTLines (data : GPX L) : Text L.Double :=
  (data.tracks.foldl (fun ls trk => trk.segments.foldl writeSegment ls)
    (chars "MULTILINESTRING(", true)).1 ++ chars ")"

/-! ## What is written -/

/-- The segments that are written. -/
def segments (data : GPX L) : List (TrackSegment L) :=
  (data.tracks.flatMap Track.segments).filter fun seg => 2 ≤ seg.points.length

def coordinates (seg : TrackSegment L) : List (L.Double × L.Double) :=
  seg.points.map fun pt => (pt.lat, pt.lon)

/-- Items with a comma in front of each, but for the first of all. -/
def listed {α : Type} (item : α → Text L.Double) : Bool → List α → Text L.Double
  | _, [] => []
  | first, a :: as => (if !first then chars "," else []) ++ item a ++ listed item false as

/-- A loop with a flag writes a list. -/
theorem foldl_listed {α : Type} {item : α → Text L.Double} {write : Listing L → α → Listing L}
    {as : List α}
    (h : ∀ a ∈ as, ∀ ls, write ls a = (ls.1 ++ (if !ls.2 then chars "," else []) ++ item a, false))
    (ls : Listing L) : (as.foldl write ls).1 = ls.1 ++ listed item ls.2 as := by
  induction as generalizing ls with
  | nil => rw [List.foldl_nil, listed, List.append_nil]
  | cons a as ih =>
    rw [List.foldl_cons, h a List.mem_cons_self, ih fun x hx => h x (List.mem_cons_of_mem a hx),
      listed]
    simp only [List.append_assoc]

def point (pt : TrackPoint L) : Text L.Double := [.num pt.lat, .char ' ', .num pt.lon]

def segment (seg : TrackSegment L) : Text L.Double :=
  chars "(" ++ listed point true seg.points ++ chars ")"

theorem writeSegment_kept {seg : TrackSegment L} (h : 2 ≤ seg.points.length) (ls : Listing L) :
    writeSegment ls seg = (ls.1 ++ (if !ls.2 then chars "," else []) ++ segment seg, false) := by
  have hpoints : ∀ out : Text L.Double,
      (seg.points.foldl writePoint (out, true)).1 = out ++ listed point true seg.points :=
    fun out => foldl_listed (fun _ _ _ => rfl) (out, true)
  rw [writeSegment, if_neg (by omega)]
  simp only [hpoints, segment, List.append_assoc]

theorem foldl_writeSegment (segs : List (TrackSegment L)) (ls : Listing L) :
    segs.foldl writeSegment ls =
      (segs.filter fun seg => 2 ≤ seg.points.length).foldl writeSegment ls := by
  rw [List.foldl_filter]
  congr 1
  funext ls seg
  by_cases h : seg.points.length < 2
  · rw [writeSegment, if_pos h, if_neg (by simpa using h)]
  · rw [if_pos (decide_eq_true (Nat.not_lt.mp h))]

theorem gpxToWKTLines_eq (data : GPX L) :
    gpxToWKTLines data =
      chars "MULTILINESTRING(" ++ listed segment true (segments data) ++ chars ")" := by
  have hkept : ∀ seg ∈ segments data, 2 ≤ seg.points.length := fun seg hseg => by
    simpa using (List.mem_filter.mp hseg).2
  have hsegments := foldl_listed (fun seg hseg => writeSegment_kept (hkept seg hseg))
    (chars "MULTILINESTRING(", true)
  rw [gpxToWKTLines, ← List.foldl_flatMap, foldl_writeSegment]
  exact congrArg (· ++ chars ")") hsegments

/-! ## What is read -/

theorem skip_comma (s : Text L.Double) : skip (chars "," ++ s) = .char ',' :: s := rfl

theorem skip_opening (s : Text L.Double) : skip (chars "(" ++ s) = .char '(' :: s := rfl

theorem skip_closing (s : Text L.Double) : skip (chars ")" ++ s) = .char ')' :: s := rfl

theorem point_read (pt : TrackPoint L) (r : Text L.Double) : Point (point pt ++ r) (pt.lat, pt.lon) r :=
  ⟨rfl, rfl, rfl⟩

/-- The points behind the bracket, the first one without a comma. -/
theorem points_read (pt : TrackPoint L) (pts : List (TrackPoint L)) (r : Text L.Double) :
    Points (point pt ++ listed point false pts ++ chars ")" ++ r)
      ((pt :: pts).map fun pt => (pt.lat, pt.lon)) r := by
  induction pts generalizing pt with
  | nil =>
    rw [listed, List.append_nil, List.append_assoc]
    exact .last (point_read pt _) (skip_closing r)
  | cons pt' pts ih =>
    have hread := ih pt'
    simp only [List.append_assoc, listed, Bool.not_false, if_true] at hread ⊢
    exact .more (point_read pt _) (skip_comma _) hread

theorem segment_read {seg : TrackSegment L} (h : 2 ≤ seg.points.length) (r : Text L.Double) :
    Line (segment seg ++ r) (coordinates seg) r := by
  unfold segment coordinates
  cases hpoints : seg.points with
  | nil => simp [hpoints] at h
  | cons pt pts =>
    have hread := points_read pt pts r
    simp only [List.append_assoc] at hread
    simp only [List.append_assoc, listed, Bool.not_true, Bool.false_eq_true, if_false, List.nil_append]
    exact .points (skip_opening _) hread

theorem segments_read {seg : TrackSegment L} {segs : List (TrackSegment L)}
    (h : ∀ s ∈ seg :: segs, 2 ≤ s.points.length) (r : Text L.Double) :
    Lines (segment seg ++ listed segment false segs ++ chars ")" ++ r)
      ((seg :: segs).map coordinates) r := by
  induction segs generalizing seg with
  | nil =>
    rw [listed, List.append_nil, List.append_assoc]
    exact .last (segment_read (h seg List.mem_cons_self) _) (skip_closing r)
  | cons seg' segs ih =>
    have hread := ih fun s hs => h s (List.mem_cons_of_mem seg hs)
    simp only [List.append_assoc, listed, Bool.not_false, if_true] at hread ⊢
    exact .more (segment_read (h seg List.mem_cons_self) _) (skip_comma _) hread

/-- Brackets with nothing between them are not in the grammar. -/
theorem empty_rejected (ls : List (List (L.Double × L.Double))) :
    ¬ MultiLineString (chars "MULTILINESTRING(" ++ chars ")" : Text L.Double) ls := by
  have hsplit : skip (chars "MULTILINESTRING(" ++ chars ")" : Text L.Double) =
      chars "MULTILINESTRING" ++ [.char '(', .char ')'] := rfl
  intro h
  cases h with
  | empty hs hb _ _ =>
    obtain ⟨rfl, -⟩ := List.cons.inj (List.append_cancel_left (hsplit.symm.trans hs))
    exact nomatch hb
  | lines hs ho hlines _ =>
    obtain rfl := List.append_cancel_left (hsplit.symm.trans hs)
    obtain rfl : [Symbol.char ')'] = _ := tail_eq rfl ho
    have hpoint : ∀ l s, ¬ Line [(Symbol.char ')' : Symbol L.Double)] l s := fun l s hline => by
      have hclose : [(Symbol.char ')' : Symbol L.Double)] = .char ')' :: [] := rfl
      cases hline with
      | empty hs => exact char_ne hclose hs (by decide)
      | points hs _ => exact char_ne hclose hs (by decide)
    cases hlines with
    | last hl _ => exact hpoint _ _ hl
    | more hl _ _ => exact hpoint _ _ hl

/-- Without tracks there is nothing between the brackets, whatever a number is. -/
theorem empty_gpx_rejected :
    ¬ ∃ (L : GpxLibrary) (ls : List (List (L.Double × L.Double))),
      MultiLineString (gpxToWKTLines ({} : GPX L)) ls :=
  fun ⟨_, ls, h⟩ => empty_rejected ls h

/-- **The text** is in the grammar, and denotes the segments with at least two points, exactly
when there is such a segment. -/
theorem gpxToWKTLines_denotes_iff (data : GPX L) :
    (MultiLineString (gpxToWKTLines data) ((segments data).map coordinates) ∧
        ∀ ls, MultiLineString (gpxToWKTLines data) ls → ls = (segments data).map coordinates) ↔
      ∃ trk ∈ data.tracks, ∃ seg ∈ trk.segments, 2 ≤ seg.points.length := by
  have hsome : (∃ trk ∈ data.tracks, ∃ seg ∈ trk.segments, 2 ≤ seg.points.length) ↔
      segments data ≠ [] := by
    rw [segments, Ne, List.filter_eq_nil_iff]
    simp only [List.mem_flatMap, decide_eq_true_eq, not_forall, not_not]
    constructor
    · rintro ⟨trk, htrk, seg, hseg, h⟩
      exact ⟨seg, ⟨trk, htrk, hseg⟩, h⟩
    · rintro ⟨seg, ⟨trk, htrk, hseg⟩, h⟩
      exact ⟨trk, htrk, seg, hseg, h⟩
  rw [hsome, gpxToWKTLines_eq]
  cases hsegs : segments data with
  | nil =>
    rw [listed, List.append_nil]
    exact ⟨fun h => (empty_rejected _ h.1).elim, fun h => (h rfl).elim⟩
  | cons seg segs =>
    have hkept : ∀ s ∈ seg :: segs, 2 ≤ s.points.length := fun s hs => by
      rw [← hsegs] at hs
      simpa using (List.mem_filter.mp hs).2
    have hread := segments_read hkept []
    simp only [List.append_assoc, List.append_nil] at hread
    have hdenotes : MultiLineString (chars "MULTILINESTRING(" ++ listed segment true (seg :: segs) ++
        chars ")") ((seg :: segs).map coordinates) := by
      simp only [List.append_assoc, listed, Bool.not_true, Bool.false_eq_true, if_false,
        List.nil_append]
      exact .lines rfl (skip_opening _) hread rfl
    exact ⟨fun _ => List.cons_ne_nil seg segs, fun _ => ⟨hdenotes, fun ls h => h.unique hdenotes⟩⟩

end Wsrv.Routes
