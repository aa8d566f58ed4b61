import Wsrv.Lib.Database
import Wsrv.Routes

/-!
# Storing a route

`createRoute` inserts the row of the track before its transaction begins, so
that a call that fails later leaves a track without its waypoints.
-/

namespace Wsrv.Routes

open Database

variable {L : GpxLibrary}

structure TrackRow (L : GpxLibrary) where
  id : Nat
  title : Str
  geom : Wkt.Text L.Double

structure WaypointRow (L : GpxLibrary) where
  name : Str
  ele : Option L.Double
  lat : L.Double
  lon : L.Double
  trackId : Nat

/-- The two tables, and the next `id` of a track. -/
structure Tables (L : GpxLibrary) where
  tracks : List (TrackRow L) := []
  waypoints : List (WaypointRow L) := []
  nextId : Nat := 1

/-! ## Operations -/

/-- A text for every locale. -/
def localized (locales : List Str) (text : Str) : Dictionary :=
  locales.foldl (fun d locale => d.insertIfNew locale text) ∅

def insertTrack (title : Str) (geom : Wkt.Text L.Double) (t : Tables L) : Nat × Tables L :=
  (t.nextId, { t with tracks := t.tracks ++ [⟨t.nextId, title, geom⟩], nextId := t.nextId + 1 })

def insertWaypoint (row : WaypointRow L) (t : Tables L) : Unit × Tables L :=
  ((), { t with waypoints := t.waypoints ++ [row] })

-- Which calls of the database fail, and `Variant::toJSON`.
variable (fails : Nat → Bool) (toJSON : Dictionary → Str)

def waypointRow (locales : List Str) (trackId : Nat) (wp : WayPoint L) : WaypointRow L :=
  ⟨toJSON (localized locales wp.name), wp.ele, wp.lat, wp.lon, trackId⟩

/-- `for( const auto &wp: gpx.waypoints_ )` -/
def insertWaypoints (locales : List Str) (trackId : Nat) :
    List (WayPoint L) → Database.Action (Tables L) Unit
  | [] => return
  | wp :: wps => do
    statement fails (insertWaypoint (waypointRow toJSON locales trackId wp))
    insertWaypoints locales trackId wps

def prepareStatement : Database.Action (Tables L) Unit := statement fails fun t => ((), t)

def createRoute (title : Str) (loc : List Str) (gpx : GPX L) : Database.Action (Tables L) Nat := do
  let trackId ← statement fails (insertTrack (toJSON (localized loc title)) (gpxToWKTLines gpx))
  transaction fails do
    prepareStatement fails
    insertWaypoints fails toJSON loc trackId gpx.waypoints
    commit fails
    return trackId

/-! ## All or nothing -/

/-- The rows of the waypoints are added. -/
def withWaypoints (rows : List (WaypointRow L)) (t : Tables L) : Tables L :=
  { t with waypoints := t.waypoints ++ rows }

variable {fails toJSON}

theorem insertWaypoints_works (locales : List Str) (trackId : Nat) (wps : List (WayPoint L)) :
    Works fails (insertWaypoints fails toJSON locales trackId wps) wps.length fun t =>
      ((), withWaypoints (wps.map (waypointRow toJSON locales trackId)) t) := by
  induction wps with
  | nil =>
    have hsame : (fun t : Tables L => ((), withWaypoints [] t)) = fun t => ((), t) :=
      funext fun t => by simp [withWaypoints]
    rw [List.map_nil, hsame]
    exact .pure ()
  | cons wp wps ih =>
    have hbind := (Works.statement (insertWaypoint (waypointRow toJSON locales trackId wp))).bind
      fun _ => ih
    have hrows : (fun t : Tables L => ((), withWaypoints (wps.map (waypointRow toJSON locales trackId))
          (insertWaypoint (waypointRow toJSON locales trackId wp) t).2)) =
        fun t => ((), withWaypoints ((wp :: wps).map (waypointRow toJSON locales trackId)) t) :=
      funext fun t => by simp [withWaypoints, insertWaypoint]
    rw [List.length_cons, Nat.add_comm]
    exact hrows ▸ hbind

/-- **All or nothing** of a route is stored. -/
def AllOrNothing (toJSON : Dictionary → Str) (title : Str) (loc : List Str) (gpx : GPX L)
    (t t' : Tables L) : Prop :=
  (t'.tracks = t.tracks ∧ t'.waypoints = t.waypoints) ∨
    (t'.tracks = t.tracks ++ [⟨t.nextId, toJSON (localized loc title), gpxToWKTLines gpx⟩] ∧
      t'.waypoints = t.waypoints ++ gpx.waypoints.map (waypointRow toJSON loc t.nextId))

/-- The statements of the transaction. -/
theorem insertions_work (locales : List Str) (trackId : Nat) (wps : List (WayPoint L)) :
    Works fails (do prepareStatement fails; insertWaypoints fails toJSON locales trackId wps)
      (1 + wps.length) fun t => ((), withWaypoints (wps.map (waypointRow toJSON locales trackId)) t) :=
  (Works.statement fun t => ((), t)).bind fun _ => insertWaypoints_works locales trackId wps

/-- What is stored: nothing, the track alone, or the route. -/
theorem createRoute_cases (title : Str) (loc : List Str) (gpx : GPX L) (t : Tables L) (c : Nat) :
    let t₁ := (insertTrack (toJSON (localized loc title)) (gpxToWKTLines gpx) t).2
    let t₂ := withWaypoints (gpx.waypoints.map (waypointRow toJSON loc t.nextId)) t₁
    let s := (createRoute fails toJSON title loc gpx ⟨t, none, c⟩).2
    fails c = true ∧ s.stored = t ∨
      fails c = false ∧ (∃ i < gpx.waypoints.length + 3, fails (c + 1 + i) = true) ∧ s.stored = t₁ ∨
        fails c = false ∧ (∀ i < gpx.waypoints.length + 3, fails (c + 1 + i) = false) ∧
          s.stored = t₂ := by
  intro t₁ t₂ s
  have hlength : 1 + gpx.waypoints.length + 2 = gpx.waypoints.length + 3 := by omega
  cases hfail : fails c with
  | true =>
    have hrun : createRoute fails toJSON title loc gpx ⟨t, none, c⟩ = (.error (), ⟨t, none, c + 1⟩) :=
      Effect.bind_error (call_fails hfail)
    exact .inl ⟨rfl, congrArg (fun r => r.2.stored) hrun⟩
  | false =>
    have hrun : createRoute fails toJSON title loc gpx ⟨t, none, c⟩ =
        transaction fails (do
          prepareStatement fails
          insertWaypoints fails toJSON loc t.nextId gpx.waypoints
          commit fails
          return t.nextId) ⟨t₁, none, c + 1⟩ := Effect.bind_ok (call_ok hfail)
    have hworks := @insertions_work L fails toJSON loc t.nextId gpx.waypoints
    have hcases := transaction_cases hworks (fun _ => t.nextId) t₁ (c + 1)
    simp only [bind_assoc, hlength] at hcases
    rcases hcases with ⟨hok, c', htrans⟩ | ⟨hbad, c', htrans⟩
    · exact .inr (.inr ⟨rfl, hok, congrArg (fun r => r.2.stored) (hrun.trans htrans)⟩)
    · exact .inr (.inl ⟨rfl, hbad, congrArg (fun r => r.2.stored) (hrun.trans htrans)⟩)

/-- One waypoint whose insertion fails: the track is stored. -/
theorem track_without_waypoint :
    ¬ ∃ L : GpxLibrary,
      AllOrNothing (fun _ => []) [] [] ({ waypoints := [{}] } : GPX L) {}
        (createRoute (fun i => i = 3) (fun _ => []) [] [] { waypoints := [{}] } ⟨{}, none, 0⟩).2.stored := by
  rintro ⟨L, ⟨htracks, -⟩ | ⟨-, hwaypoints⟩⟩
  · exact nomatch htracks
  · exact nomatch hwaypoints

/-- **Creation is atomic** exactly when there are no waypoints, the insertion of the track fails,
or no call fails. -/
theorem createRoute_atomic_iff (title : Str) (loc : List Str) (gpx : GPX L) (t : Tables L) (c : Nat) :
    AllOrNothing toJSON title loc gpx t
        (createRoute fails toJSON title loc gpx ⟨t, none, c⟩).2.stored ↔
      gpx.waypoints = [] ∨ fails c = true ∨
        ∀ i < gpx.waypoints.length + 4, fails (c + i) = false := by
  rcases createRoute_cases title loc gpx t c with ⟨hfail, hstored⟩ | ⟨hc, ⟨i, hi, hfail⟩, hstored⟩ |
    ⟨hc, hok, hstored⟩
  · rw [hstored]
    exact ⟨fun _ => .inr (.inl hfail), fun _ => .inl ⟨rfl, rfl⟩⟩
  · rw [hstored]
    constructor
    · rintro (⟨htracks, -⟩ | ⟨-, hrows⟩)
      · exact (List.append_ne_nil_of_right_ne_nil [] (List.cons_ne_nil _ [])
          (List.append_cancel_left (htracks.trans (List.append_nil t.tracks).symm))).elim
      · have hnone : gpx.waypoints.map (waypointRow toJSON loc t.nextId) = [] :=
          List.append_cancel_left (hrows.symm.trans (List.append_nil t.waypoints).symm)
        exact .inl (List.map_eq_nil_iff.mp hnone)
    · rintro (hnone | hfirst | hall)
      · exact .inr ⟨rfl, by rw [hnone]; exact (List.append_nil t.waypoints).symm⟩
      · exact nomatch hc.symm.trans hfirst
      · have hlater := hall (i + 1) (by omega)
        rw [← Nat.add_assoc, Nat.add_right_comm] at hlater
        exact nomatch hfail.symm.trans hlater
  · rw [hstored]
    refine ⟨fun _ => .inr (.inr fun i hi => ?_), fun _ => .inr ⟨rfl, rfl⟩⟩
    rcases i with _ | i
    · exact hc
    · have hlater := hok i (by omega)
      rwa [Nat.add_assoc, Nat.add_comm 1] at hlater

end Wsrv.Routes
