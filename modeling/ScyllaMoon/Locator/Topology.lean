import Mathlib

/-!
# The topology

`topology` has the endpoints of each datacenter, those of each rack of a datacenter, and the location of
each endpoint. An endpoint is placed where the snitch says it is.
-/

namespace ScyllaMoon.Locator

variable {K V Ep Dc Rack : Type}

/-- `m[k]` is changed by `f`. What is missing is made first. -/
def access [DecidableEq K] (m : Finmap fun _ : K => V) (k : K) (new : V) (f : V → V) : Finmap fun _ : K => V :=
  m.insert k (f ((m.lookup k).getD new))

theorem lookup_access [DecidableEq K] (m : Finmap fun _ : K => V) (k k' : K) (new : V) (f : V → V) :
    (access m k new f).lookup k' = if k' = k then some (f ((m.lookup k).getD new)) else m.lookup k' := by
  split
  next eq =>
    subst eq
    exact Finmap.lookup_insert m
  next ne =>
    exact Finmap.lookup_insert_of_ne m ne

/-- Where the snitch says an endpoint is. -/
structure Snitch (Ep Dc Rack : Type) where
  getDatacenter : Ep → Dc
  getRack : Ep → Rack

structure Topology (Ep Dc Rack : Type) where
  dcEndpoints : Finmap fun _ : Dc => Finset Ep := ∅
  dcRacks : Finmap fun _ : Dc => Finmap fun _ : Rack => Finset Ep := ∅
  currentLocations : Finmap fun _ : Ep => Dc × Rack := ∅

namespace Topology

variable [DecidableEq Ep] [DecidableEq Dc] [DecidableEq Rack] (tp : Topology Ep Dc Rack) (dc : Dc)

/-- The endpoints of the datacenter -/
def endpointsOf : Finset Ep := (tp.dcEndpoints.lookup dc).getD ∅

/-- The racks of the datacenter -/
def racksOf : Finmap fun _ : Rack => Finset Ep := (tp.dcRacks.lookup dc).getD ∅

/-- The endpoints of the rack -/
def endpointsAt (loc : Dc × Rack) : Finset Ep := ((tp.racksOf loc.1).lookup loc.2).getD ∅

/-- The endpoint is taken out of the datacenter and the rack. -/
def leave (ep : Ep) (loc : Dc × Rack) : Topology Ep Dc Rack :=
  { tp with
    dcEndpoints := access tp.dcEndpoints loc.1 ∅ fun eps => eps.erase ep
    dcRacks := access tp.dcRacks loc.1 ∅ fun racks => access racks loc.2 ∅ fun eps => eps.erase ep }

/-- The endpoint is put into the datacenter and the rack. -/
def enter (ep : Ep) (loc : Dc × Rack) : Topology Ep Dc Rack where
  dcEndpoints := access tp.dcEndpoints loc.1 ∅ (insert ep)
  dcRacks := access tp.dcRacks loc.1 ∅ fun racks => access racks loc.2 ∅ (insert ep)
  currentLocations := tp.currentLocations.insert ep loc

/-- `topology::add_endpoint` -/
def addEndpoint (snitch : Snitch Ep Dc Rack) (ep : Ep) : Topology Ep Dc Rack :=
  let loc := (snitch.getDatacenter ep, snitch.getRack ep)
  match tp.currentLocations.lookup ep with
  | some current => if current = loc then tp else (tp.leave ep current).enter ep loc
  | none => tp.enter ep loc

/-- `topology::update_endpoint`. There may be no snitch yet. -/
def updateEndpoint (snitch : Option (Snitch Ep Dc Rack)) (ep : Ep) : Topology Ep Dc Rack :=
  match tp.currentLocations.lookup ep, snitch with
  | some _, some snitch => tp.addEndpoint snitch ep
  | _, _ => tp

/-- `topology::remove_endpoint` -/
def removeEndpoint (ep : Ep) : Topology Ep Dc Rack :=
  match tp.currentLocations.lookup ep with
  | some current => { tp.leave ep current with currentLocations := tp.currentLocations.erase ep }
  | none => tp

/-- The three maps describe the same endpoints. -/
structure Agrees : Prop where
  endpoints : ∀ {ep dc}, ep ∈ tp.endpointsOf dc ↔ ∃ rack, tp.currentLocations.lookup ep = some (dc, rack)
  racks : ∀ {ep loc}, ep ∈ tp.endpointsAt loc ↔ tp.currentLocations.lookup ep = some loc

/-- Every rack that is listed has an endpoint. -/
def RacksInhabited : Prop :=
  ∀ dc rack eps, (tp.racksOf dc).lookup rack = some eps → eps.Nonempty

/-- Somebody else stays in the rack where the endpoint is. -/
def Accompanied (ep : Ep) : Prop :=
  ∀ loc, tp.currentLocations.lookup ep = some loc → ∃ other, other ≠ ep ∧ tp.currentLocations.lookup other = some loc

variable {tp : Topology Ep Dc Rack} {ep : Ep} {loc : Dc × Rack}

omit [DecidableEq Ep] in
theorem lookup_access_rack (m : Finmap fun _ : Dc => Finmap fun _ : Rack => Finset Ep) (loc : Dc × Rack)
    (f : Finset Ep → Finset Ep) (dc : Dc) (rack : Rack) :
    (((access m loc.1 ∅ fun racks => access racks loc.2 ∅ f).lookup dc).getD ∅).lookup rack =
      if (dc, rack) = loc then some (f ((((m.lookup dc).getD ∅).lookup rack).getD ∅))
      else ((m.lookup dc).getD ∅).lookup rack := by
  obtain ⟨dc', rack'⟩ := loc
  rw [lookup_access]
  by_cases hd : dc = dc'
  · subst hd
    rw [if_pos rfl, Option.getD_some, lookup_access]
    by_cases hr : rack = rack'
    · subst hr
      rw [if_pos rfl, if_pos rfl]
    · rw [if_neg hr, if_neg (by simp [hr])]
  · rw [if_neg hd, if_neg (by simp [hd])]

theorem endpointsOf_leave : (tp.leave ep loc).endpointsOf dc =
    if dc = loc.1 then (tp.endpointsOf dc).erase ep else tp.endpointsOf dc := by
  simp only [endpointsOf, leave, lookup_access]
  split
  next eq =>
    rw [eq, Option.getD_some]
  · rfl

theorem endpointsOf_enter : (tp.enter ep loc).endpointsOf dc =
    if dc = loc.1 then insert ep (tp.endpointsOf dc) else tp.endpointsOf dc := by
  simp only [endpointsOf, enter, lookup_access]
  split
  next eq =>
    rw [eq, Option.getD_some]
  · rfl

theorem lookup_racksOf_leave (rack : Rack) : ((tp.leave ep loc).racksOf dc).lookup rack =
    if (dc, rack) = loc then some ((tp.endpointsAt (dc, rack)).erase ep) else (tp.racksOf dc).lookup rack :=
  lookup_access_rack ..

theorem lookup_racksOf_enter (rack : Rack) : ((tp.enter ep loc).racksOf dc).lookup rack =
    if (dc, rack) = loc then some (insert ep (tp.endpointsAt (dc, rack))) else (tp.racksOf dc).lookup rack :=
  lookup_access_rack ..

theorem endpointsAt_leave (loc' : Dc × Rack) : (tp.leave ep loc).endpointsAt loc' =
    if loc' = loc then (tp.endpointsAt loc').erase ep else tp.endpointsAt loc' := by
  rw [endpointsAt, lookup_racksOf_leave]
  split <;> rfl

theorem endpointsAt_enter (loc' : Dc × Rack) : (tp.enter ep loc).endpointsAt loc' =
    if loc' = loc then insert ep (tp.endpointsAt loc') else tp.endpointsAt loc' := by
  rw [endpointsAt, lookup_racksOf_enter]
  split <;> rfl

/-- The endpoint is nowhere and the other maps do not know it. -/
theorem Agrees.vacate (agrees : Agrees tp) (current : tp.currentLocations.lookup ep = some loc) :
    Agrees { tp.leave ep loc with currentLocations := tp.currentLocations.erase ep } := by
  have erased : ∀ {ep'} {x : Dc × Rack}, (tp.currentLocations.erase ep).lookup ep' = some x ↔
      ep' ≠ ep ∧ tp.currentLocations.lookup ep' = some x := by
    intro ep' x
    by_cases e : ep' = ep
    · subst e
      simp [Finmap.lookup_erase]
    · simp [Finmap.lookup_erase_ne e, e]
  refine ⟨fun {ep' dc} => ?_, fun {ep' loc'} => ?_⟩
  · change ep' ∈ (tp.leave ep loc).endpointsOf dc ↔ ∃ rack, (tp.currentLocations.erase ep).lookup ep' = some (dc, rack)
    simp only [erased, exists_and_left, ← agrees.endpoints, endpointsOf_leave]
    split
    · exact Finset.mem_erase
    next ne =>
      refine ⟨fun mem => ⟨?_, mem⟩, fun h => h.2⟩
      rintro rfl
      obtain ⟨rack, there⟩ := agrees.endpoints.1 mem
      exact ne (congrArg Prod.fst (Option.some.inj (there.symm.trans current)))
  · change ep' ∈ (tp.leave ep loc).endpointsAt loc' ↔ (tp.currentLocations.erase ep).lookup ep' = some loc'
    simp only [erased, ← agrees.racks, endpointsAt_leave]
    split
    · exact Finset.mem_erase
    next ne =>
      refine ⟨fun mem => ⟨?_, mem⟩, fun h => h.2⟩
      rintro rfl
      exact ne (Option.some.inj ((agrees.racks.1 mem).symm.trans current))

/-- An endpoint that is nowhere is put somewhere. -/
theorem Agrees.enter (agrees : Agrees tp) (absent : tp.currentLocations.lookup ep = none) (loc : Dc × Rack) :
    Agrees (tp.enter ep loc) := by
  have placed : ∀ {ep'} {x : Dc × Rack}, (tp.currentLocations.insert ep loc).lookup ep' = some x ↔
      ep' = ep ∧ x = loc ∨ tp.currentLocations.lookup ep' = some x := by
    intro ep' x
    by_cases e : ep' = ep
    · subst e
      simp [Finmap.lookup_insert, absent, eq_comm]
    · simp [Finmap.lookup_insert_of_ne _ e, e]
  refine ⟨fun {ep' dc} => ?_, fun {ep' loc'} => ?_⟩
  · change ep' ∈ (tp.enter ep loc).endpointsOf dc ↔ ∃ rack, (tp.currentLocations.insert ep loc).lookup ep' = some (dc, rack)
    simp only [placed, exists_or, ← agrees.endpoints, exists_and_left, endpointsOf_enter]
    split
    next eq =>
      subst eq
      simp [Prod.ext_iff]
    next ne =>
      simp [Prod.ext_iff, ne]
  · change ep' ∈ (tp.enter ep loc).endpointsAt loc' ↔ (tp.currentLocations.insert ep loc).lookup ep' = some loc'
    simp only [placed, ← agrees.racks, endpointsAt_enter]
    split
    next eq =>
      simp [eq]
    next ne =>
      simp [ne]

/-- An endpoint that moves is nowhere for a moment. -/
theorem leave_enter (tp : Topology Ep Dc Rack) (ep : Ep) (loc loc' : Dc × Rack) : (tp.leave ep loc).enter ep loc' =
    Topology.enter { tp.leave ep loc with currentLocations := tp.currentLocations.erase ep } ep loc' := by
  have same : tp.currentLocations.insert ep loc' = (tp.currentLocations.erase ep).insert ep loc' := by
    refine Finmap.ext_lookup fun ep' => ?_
    by_cases e : ep' = ep
    · subst e
      rw [Finmap.lookup_insert, Finmap.lookup_insert]
    · rw [Finmap.lookup_insert_of_ne _ e, Finmap.lookup_insert_of_ne _ e, Finmap.lookup_erase_ne e]
  simp only [Topology.enter, leave, same]

theorem Agrees.addEndpoint (agrees : Agrees tp) (snitch : Snitch Ep Dc Rack) (ep : Ep) :
    Agrees (tp.addEndpoint snitch ep) := by
  unfold Topology.addEndpoint
  dsimp only
  split
  next current found =>
    split_ifs
    · exact agrees
    · rw [leave_enter]
      exact (agrees.vacate found).enter (Finmap.lookup_erase ..) _
  next absent =>
    exact agrees.enter absent _

/-- The endpoint is where the snitch says, and nobody else has moved. -/
theorem lookup_addEndpoint (snitch : Snitch Ep Dc Rack) (ep' : Ep) :
    (tp.addEndpoint snitch ep).currentLocations.lookup ep' =
      if ep' = ep then some (snitch.getDatacenter ep, snitch.getRack ep) else tp.currentLocations.lookup ep' := by
  have placed : ∀ m : Finmap fun _ : Ep => Dc × Rack, ∀ loc, (m.insert ep loc).lookup ep' =
      if ep' = ep then some loc else m.lookup ep' := by
    intro m loc
    split
    next eq =>
      rw [eq, Finmap.lookup_insert]
    next ne =>
      exact Finmap.lookup_insert_of_ne m ne
  unfold Topology.addEndpoint
  dsimp only
  split
  next current found =>
    split_ifs with same own
    · rw [own, found, same]
    · rfl
    next own =>
      exact (placed ..).trans (if_pos own)
    next other =>
      exact (placed ..).trans (if_neg other)
  · exact placed ..

theorem Agrees.updateEndpoint (agrees : Agrees tp) (snitch : Option (Snitch Ep Dc Rack)) (ep : Ep) :
    Agrees (tp.updateEndpoint snitch ep) := by
  unfold Topology.updateEndpoint
  split
  · exact agrees.addEndpoint _ ep
  · exact agrees

theorem Agrees.removeEndpoint (agrees : Agrees tp) (ep : Ep) : Agrees (tp.removeEndpoint ep) := by
  unfold Topology.removeEndpoint
  split
  next current found =>
    exact agrees.vacate found
  · exact agrees

section

variable (inhabited : RacksInhabited tp)
include inhabited

theorem RacksInhabited.leave (agrees : Agrees tp)
    (others : ∃ other, other ≠ ep ∧ tp.currentLocations.lookup other = some loc) : RacksInhabited (tp.leave ep loc) := by
  intro dc rack eps found
  rw [lookup_racksOf_leave] at found
  split at found
  next eq =>
    cases found
    obtain ⟨other, ne, there⟩ := others
    exact ⟨other, Finset.mem_erase.2 ⟨ne, agrees.racks.2 (eq ▸ there)⟩⟩
  · exact inhabited dc rack eps found

theorem RacksInhabited.enter (ep : Ep) (loc : Dc × Rack) : RacksInhabited (tp.enter ep loc) := by
  intro dc rack eps found
  rw [lookup_racksOf_enter] at found
  split at found
  · cases found
    exact ⟨ep, Finset.mem_insert_self _ _⟩
  · exact inhabited dc rack eps found

theorem RacksInhabited.addEndpoint (agrees : Agrees tp) {snitch : Snitch Ep Dc Rack}
    (stays : tp.currentLocations.lookup ep = some (snitch.getDatacenter ep, snitch.getRack ep) ∨ Accompanied tp ep) :
    RacksInhabited (tp.addEndpoint snitch ep) := by
  unfold Topology.addEndpoint
  dsimp only
  split
  next current found =>
    split_ifs with same
    · exact inhabited
    · rcases stays with stays | accompanied
      · exact absurd (Option.some.inj (found.symm.trans stays)) same
      · exact (inhabited.leave agrees (accompanied current found)).enter ep _
  · exact inhabited.enter ep _

theorem RacksInhabited.updateEndpoint (agrees : Agrees tp) {snitch : Option (Snitch Ep Dc Rack)}
    (stays : ∀ snitch' ∈ snitch, tp.currentLocations.lookup ep = some (snitch'.getDatacenter ep, snitch'.getRack ep) ∨
      Accompanied tp ep) : RacksInhabited (tp.updateEndpoint snitch ep) := by
  unfold Topology.updateEndpoint
  split
  · exact inhabited.addEndpoint agrees (stays _ rfl)
  · exact inhabited

theorem RacksInhabited.removeEndpoint (agrees : Agrees tp) (accompanied : Accompanied tp ep) :
    RacksInhabited (tp.removeEndpoint ep) := by
  unfold Topology.removeEndpoint
  split
  next current found =>
    exact inhabited.leave agrees (accompanied current found)
  · exact inhabited

end

end Topology

end ScyllaMoon.Locator
