import ScyllaMoon.Locator.Strategy

/-!
# Where `network_topology_strategy` places replicas

Each datacenter is on its own: what the walk has met of it so far are replicas or, as long as there are racks
it has not seen, endpoints that were skipped because of their rack. So when the walk has been around, there
are as many replicas in as many racks as there can be.
-/

namespace ScyllaMoon.Locator

open Lib Function NetworkTopologyStrategy List

variable {T Ep Dc Rack : Type} [DecidableEq Ep] [DecidableEq Dc] [DecidableEq Rack]

/-- The endpoints of the topology are where the snitch says, and every rack has one. -/
structure Topology.Located (tp : Topology Ep Dc Rack) (snitch : Snitch Ep Dc Rack) : Prop where
  agrees : tp.Agrees
  inhabited : tp.RacksInhabited
  located : ∀ {ep loc}, tp.currentLocations.lookup ep = some loc → loc = (snitch.getDatacenter ep, snitch.getRack ep)

namespace Topology.Located

variable {tp : Topology Ep Dc Rack} {snitch : Snitch Ep Dc Rack} (located : tp.Located snitch) {ep : Ep} {dc : Dc}

include located

theorem getDatacenter (mem : ep ∈ tp.endpointsOf dc) : snitch.getDatacenter ep = dc := by
  obtain ⟨rack, there⟩ := located.agrees.endpoints.1 mem
  exact congrArg Prod.fst (located.located there).symm

theorem mem_endpointsOf (member : (tp.currentLocations.lookup ep).isSome = true) :
    ep ∈ tp.endpointsOf (snitch.getDatacenter ep) := by
  obtain ⟨loc, there⟩ := Option.isSome_iff_exists.1 member
  exact located.agrees.endpoints.2 ⟨_, there.trans (congrArg some (located.located there))⟩

/-- The racks of a datacenter are those of its endpoints. -/
theorem keys_racksOf (dc : Dc) : (tp.racksOf dc).keys = (tp.endpointsOf dc).image snitch.getRack := by
  ext rack
  rw [Finmap.mem_keys, ← Finmap.lookup_isSome, Finset.mem_image]
  constructor
  · intro listed
    obtain ⟨eps, found⟩ := Option.isSome_iff_exists.1 listed
    obtain ⟨ep, mem⟩ := located.inhabited dc rack eps found
    have there : tp.currentLocations.lookup ep = some (dc, rack) :=
      located.agrees.racks.1 (by rw [Topology.endpointsAt, found]; exact mem)
    exact ⟨ep, located.agrees.endpoints.2 ⟨rack, there⟩, congrArg Prod.snd (located.located there).symm⟩
  · rintro ⟨ep, mem, rfl⟩
    obtain ⟨rack, there⟩ := located.agrees.endpoints.1 mem
    have at' := located.agrees.racks.2 there
    rw [show rack = snitch.getRack ep from congrArg Prod.snd (located.located there)] at at'
    rw [Topology.endpointsAt] at at'
    cases found : (tp.racksOf dc).lookup (snitch.getRack ep) with
    | some eps => rfl
    | none =>
      rw [found] at at'
      simp at at'

end Topology.Located

namespace NetworkTopologyStrategy

variable (dcRepFactor : Finmap fun _ : Dc => Nat) (snitch : Snitch Ep Dc Rack) (tp : Topology Ep Dc Rack)

/-- How many replicas there are to be in the datacenter. -/
def wanted (dc : Dc) : Nat := min (tp.endpointsOf dc).card (getReplicationFactor dcRepFactor dc)

/-- The list of replicas repeats the sets of the datacenters. -/
structure Listed (s : Placement Ep Dc Rack) : Prop where
  nodup : s.replicas.Nodup
  mem : ∀ ep, ep ∈ s.replicas ↔ ep ∈ s.dcReplicas (snitch.getDatacenter ep)

/-- One datacenter, when the walk has met the endpoints `visited`. -/
structure DcPlaced (visited : List Ep) (s : Placement Ep Dc Rack) (dc : Dc) : Prop where
  subset : s.dcReplicas dc ⊆ tp.endpointsOf dc
  skipped : ∀ ep ∈ s.skippedDcEndpoints dc, ep ∈ tp.endpointsOf dc
  card : (s.dcReplicas dc).card ≤ wanted dcRepFactor tp dc
  racks : s.seenRacks dc = (s.dcReplicas dc).image snitch.getRack
  apart : sawAllRacks tp s dc = false → (s.dcReplicas dc).card = (s.seenRacks dc).card
  progress : (s.dcReplicas dc).card = wanted dcRepFactor tp dc ∨ ∀ ep ∈ visited, snitch.getDatacenter ep = dc →
    ep ∈ s.dcReplicas dc ∨
      sawAllRacks tp s dc = false ∧ ep ∈ s.skippedDcEndpoints dc ∧ snitch.getRack ep ∈ s.seenRacks dc

structure Placed (visited : List Ep) (s : Placement Ep Dc Rack) : Prop where
  listed : Listed snitch s
  unwanted : ∀ dc, dc ∉ dcRepFactor → s.dcReplicas dc = ∅
  placed : ∀ dc, dc ∈ dcRepFactor → DcPlaced dcRepFactor snitch tp visited s dc

/-- What the endpoints that were skipped add. -/
structure Filled (dc : Dc) (eps : List Ep) (s s' : Placement Ep Dc Rack) : Prop where
  listed : Listed snitch s'
  others : ∀ dc', dc' ≠ dc → s'.dcReplicas dc' = s.dcReplicas dc'
  seenRacks : s'.seenRacks = s.seenRacks
  skipped : s'.skippedDcEndpoints = s.skippedDcEndpoints
  grows : s.replicas <+: s'.replicas
  old : s.dcReplicas dc ⊆ s'.dcReplicas dc
  only : ∀ ep ∈ s'.dcReplicas dc, ep ∈ s.dcReplicas dc ∨ ep ∈ eps
  card : (s'.dcReplicas dc).card ≤ wanted dcRepFactor tp dc
  all : (s'.dcReplicas dc).card = wanted dcRepFactor tp dc ∨ ∀ ep ∈ eps, ep ∈ s'.dcReplicas dc

variable {dcRepFactor snitch tp} {s s' : Placement Ep Dc Rack} {dc : Dc} {ep : Ep} {visited : List Ep}

omit [DecidableEq Ep] [DecidableEq Rack] in
theorem hasSufficientReplicas_iff :
    hasSufficientReplicas dcRepFactor tp s dc = true ↔ wanted dcRepFactor tp dc ≤ (s.dcReplicas dc).card :=
  decide_eq_true_iff

open Finset (mem_insert card_insert_le image_subset_image mem_image_of_mem insert_subset image_insert card_pos)

/-- The endpoint is the first of its rack, and the rack is noted. -/
def addRack (snitch : Snitch Ep Dc Rack) (s : Placement Ep Dc Rack) (dc : Dc) (ep : Ep) : Placement Ep Dc Rack :=
  { addReplica s dc ep with seenRacks := update s.seenRacks dc (insert (snitch.getRack ep) (s.seenRacks dc)) }

theorem dcReplicas_addRack : (addRack snitch s dc ep).dcReplicas dc = insert ep (s.dcReplicas dc) := update_self ..

theorem seenRacks_addRack : (addRack snitch s dc ep).seenRacks dc = insert (snitch.getRack ep) (s.seenRacks dc) :=
  update_self ..

omit [DecidableEq Rack] in
theorem Listed.addReplica (listed : Listed snitch s) (own : snitch.getDatacenter ep = dc) :
    Listed snitch (addReplica s dc ep) where
  nodup := nodup_pushBack listed.nodup
  mem ep' := by
    change ep' ∈ pushBack s.replicas ep ↔ ep' ∈ update s.dcReplicas dc _ _
    rw [mem_pushBack]
    by_cases same : snitch.getDatacenter ep' = dc
    · rw [same, update_self, mem_insert, ← same, listed.mem]
    · rw [update_of_ne same, ← listed.mem]
      refine ⟨fun h => h.resolve_left ?_, .inr⟩
      rintro rfl
      exact same own

variable {eps : List Ep}

omit [DecidableEq Rack] in
theorem addSkipped_spec (listed : Listed snitch s) (own : ∀ ep ∈ eps, snitch.getDatacenter ep = dc)
    (card : (s.dcReplicas dc).card ≤ wanted dcRepFactor tp dc) :
    Filled dcRepFactor snitch tp dc eps s (addSkipped dcRepFactor tp dc s eps) := by
  induction eps generalizing s with
  | nil => exact ⟨listed, fun _ _ => rfl, rfl, rfl, prefix_rfl, subset_rfl, fun _ => .inl, card, .inr nofun⟩
  | cons ep eps ih =>
    obtain ⟨first, own⟩ := forall_mem_cons.1 own
    unfold addSkipped
    split
    next enough =>
      exact ⟨listed, fun _ _ => rfl, rfl, rfl, prefix_rfl, subset_rfl, fun _ => .inl, card,
        .inl (card.antisymm (hasSufficientReplicas_iff.1 enough))⟩
    next few =>
      have self : (addReplica s dc ep).dcReplicas dc = insert ep (s.dcReplicas dc) := update_self ..
      have lt := Nat.lt_of_not_le (mt hasSufficientReplicas_iff.2 few)
      have rest := ih (listed.addReplica first) own (by
        rw [self]
        exact (card_insert_le _ _).trans lt)
      refine ⟨rest.listed, fun dc' ne => (rest.others dc' ne).trans (update_of_ne ne ..), rest.seenRacks, rest.skipped,
        pushBack_grows.trans rest.grows, fun e he => rest.old (self ▸ Finset.mem_insert_of_mem he), fun e he => ?_, rest.card, ?_⟩
      · rcases rest.only e he with h | h
        · rw [self, mem_insert] at h
          rcases h with rfl | h
          · exact .inr mem_cons_self
          · exact .inl h
        · exact .inr (mem_cons_of_mem _ h)
      · refine rest.all.imp_right fun all => forall_mem_cons.2 ⟨?_, all⟩
        exact rest.old (self ▸ Finset.mem_insert_self _ _)

omit [DecidableEq Ep] in
/-- A datacenter that the walk does not visit stays as it is. -/
theorem DcPlaced.frame (placed : DcPlaced dcRepFactor snitch tp visited s dc) (other : snitch.getDatacenter ep ≠ dc)
    (dcReplicas : s'.dcReplicas dc = s.dcReplicas dc) (seenRacks : s'.seenRacks dc = s.seenRacks dc)
    (skipped : s'.skippedDcEndpoints dc = s.skippedDcEndpoints dc) :
    DcPlaced dcRepFactor snitch tp (visited ++ [ep]) s' dc := by
  have saw : sawAllRacks tp s' dc = sawAllRacks tp s dc := by rw [sawAllRacks, sawAllRacks, seenRacks]
  refine ⟨dcReplicas ▸ placed.subset, skipped ▸ placed.skipped, dcReplicas ▸ placed.card, ?_, ?_, ?_⟩
  · rw [seenRacks, dcReplicas]
    exact placed.racks
  · rw [saw, seenRacks, dcReplicas]
    exact placed.apart
  · rw [saw, seenRacks, dcReplicas, skipped]
    refine placed.progress.imp_right fun all ep' mem own => ?_
    rcases mem_append.1 mem with mem | mem
    · exact all ep' mem own
    · exact absurd (mem_singleton.1 mem ▸ own) other

variable (located : tp.Located snitch)

include located

section

variable (placed : DcPlaced dcRepFactor snitch tp visited s dc)
include placed

theorem DcPlaced.seenRacks_subset : s.seenRacks dc ⊆ (tp.racksOf dc).keys := by
  rw [placed.racks, located.keys_racksOf]
  exact image_subset_image placed.subset

theorem DcPlaced.seenRacks_eq (saw : sawAllRacks tp s dc = true) :
    s.seenRacks dc = (tp.endpointsOf dc).image snitch.getRack := by
  rw [← located.keys_racksOf]
  exact Finset.eq_of_subset_of_card_le (placed.seenRacks_subset located) (decide_eq_true_iff.1 saw).ge

variable (mem : ep ∈ tp.endpointsOf dc) (few : (s.dcReplicas dc).card < wanted dcRepFactor tp dc)
include mem few

/-- All racks were seen: the endpoint becomes a replica. -/
theorem DcPlaced.addReplica (saw : sawAllRacks tp s dc = true) :
    DcPlaced dcRepFactor snitch tp (visited ++ [ep]) (addReplica s dc ep) dc := by
  have self : (NetworkTopologyStrategy.addReplica s dc ep).dcReplicas dc = insert ep (s.dcReplicas dc) :=
    update_self ..
  have saw' : sawAllRacks tp (NetworkTopologyStrategy.addReplica s dc ep) dc = true := saw
  have seen : snitch.getRack ep ∈ s.seenRacks dc := by
    rw [placed.seenRacks_eq located saw]
    exact mem_image_of_mem _ mem
  refine ⟨?_, placed.skipped, ?_, ?_, ?_, .inr fun ep' mem' own => ?_⟩
  · rw [self]
    exact insert_subset mem placed.subset
  · rw [self]
    exact (card_insert_le _ _).trans few
  · rw [self, image_insert, ← placed.racks, Finset.insert_eq_self.2 seen]
    rfl
  · rw [saw']
    exact nofun
  · rw [self, mem_insert]
    rcases mem_append.1 mem' with mem' | mem'
    · rcases placed.progress.resolve_left few.ne ep' mem' own with h | h
      · exact .inl (.inr h)
      · rw [saw] at h
        exact absurd h.1 nofun
    · exact .inl (.inl (mem_singleton.1 mem'))

omit located in
/-- The rack was seen: the endpoint is skipped. -/
theorem DcPlaced.skip (saw : sawAllRacks tp s dc = false) (seen : snitch.getRack ep ∈ s.seenRacks dc) : DcPlaced dcRepFactor snitch tp (visited ++ [ep])
      { s with skippedDcEndpoints := update s.skippedDcEndpoints dc (pushBack (s.skippedDcEndpoints dc) ep) } dc := by
  refine ⟨placed.subset, fun ep' mem' => ?_, placed.card, placed.racks, placed.apart, .inr fun ep' mem' own => ?_⟩
  · dsimp only at mem'
    rw [update_self, mem_pushBack] at mem'
    rcases mem' with rfl | mem'
    · exact mem
    · exact placed.skipped ep' mem'
  · dsimp only
    rw [update_self, mem_pushBack]
    rcases mem_append.1 mem' with mem' | mem'
    · exact (placed.progress.resolve_left few.ne ep' mem' own).imp_right fun h => ⟨h.1, .inr h.2.1, h.2.2⟩
    · cases mem_singleton.1 mem'
      exact .inr ⟨saw, .inl rfl, seen⟩

omit located in
/-- The rack is new: the endpoint becomes a replica. -/
theorem DcPlaced.addRack (saw : sawAllRacks tp s dc = false) (new : snitch.getRack ep ∉ s.seenRacks dc)
    (more : sawAllRacks tp (addRack snitch s dc ep) dc = false) :
    DcPlaced dcRepFactor snitch tp (visited ++ [ep]) (addRack snitch s dc ep) dc := by
  have fresh : ep ∉ s.dcReplicas dc := fun old => new (placed.racks ▸ mem_image_of_mem _ old)
  refine ⟨?_, placed.skipped, ?_, ?_, fun _ => ?_, .inr fun ep' mem' own => ?_⟩
  · rw [dcReplicas_addRack]
    exact insert_subset mem placed.subset
  · rw [dcReplicas_addRack]
    exact (card_insert_le _ _).trans few
  · rw [dcReplicas_addRack, seenRacks_addRack, image_insert, placed.racks]
  · rw [dcReplicas_addRack, seenRacks_addRack, Finset.card_insert_of_notMem fresh, Finset.card_insert_of_notMem new, placed.apart saw]
  · rw [dcReplicas_addRack, seenRacks_addRack, mem_insert]
    rcases mem_append.1 mem' with mem' | mem'
    · rcases placed.progress.resolve_left few.ne ep' mem' own with h | h
      · exact .inl (.inr h)
      · exact .inr ⟨more, h.2.1, Finset.mem_insert_of_mem h.2.2⟩
    · exact .inl (.inl (mem_singleton.1 mem'))

/-- The last rack was found: the endpoints that were skipped are added. -/
theorem DcPlaced.addSkipped (done : sawAllRacks tp (NetworkTopologyStrategy.addRack snitch s dc ep) dc = true)
    (filled : Filled dcRepFactor snitch tp dc (s.skippedDcEndpoints dc) (NetworkTopologyStrategy.addRack snitch s dc ep) s') :
    DcPlaced dcRepFactor snitch tp (visited ++ [ep]) s' dc := by
  have saw : sawAllRacks tp s' dc = true := by
    rw [sawAllRacks, filled.seenRacks]
    exact done
  have subset : s'.dcReplicas dc ⊆ tp.endpointsOf dc := by
    intro ep' mem'
    rcases filled.only ep' mem' with h | h
    · rw [dcReplicas_addRack, mem_insert] at h
      rcases h with rfl | h
      · exact mem
      · exact placed.subset h
    · exact placed.skipped ep' h
  have seen : s'.seenRacks dc = (insert ep (s.dcReplicas dc)).image snitch.getRack := by
    rw [filled.seenRacks, seenRacks_addRack, image_insert, placed.racks]
  have whole : s'.seenRacks dc = (tp.endpointsOf dc).image snitch.getRack := by
    rw [← located.keys_racksOf]
    refine Finset.eq_of_subset_of_card_le ?_ (decide_eq_true_iff.1 saw).ge
    rw [seen, located.keys_racksOf]
    exact image_subset_image (insert_subset mem placed.subset)
  refine ⟨subset, filled.skipped ▸ placed.skipped, filled.card, ?_, ?_, ?_⟩
  · refine Finset.Subset.antisymm ?_ ?_
    · rw [seen, ← dcReplicas_addRack]
      exact image_subset_image filled.old
    · rw [whole]
      exact image_subset_image subset
  · rw [saw]
    exact nofun
  · refine filled.all.imp_right fun all ep' mem' own => .inl ?_
    rcases mem_append.1 mem' with mem' | mem'
    · rcases placed.progress.resolve_left few.ne ep' mem' own with h | h
      · exact filled.old (by rw [dcReplicas_addRack]; exact Finset.mem_insert_of_mem h)
      · exact all ep' h.2.1
    · cases mem_singleton.1 mem'
      exact filled.old (by rw [dcReplicas_addRack]; exact Finset.mem_insert_self _ _)

end

/-- The walk meets one more endpoint. -/
theorem Placed.visit (placed : Placed dcRepFactor snitch tp visited s) (mem : ep ∈ tp.endpointsOf (snitch.getDatacenter ep)) :
    Placed dcRepFactor snitch tp (visited ++ [ep]) (visit dcRepFactor snitch tp s ep) ∧
      s.replicas <+: (visit dcRepFactor snitch tp s ep).replicas := by
  generalize own : snitch.getDatacenter ep = dc at mem
  -- only the datacenter of the endpoint may change
  have assemble : ∀ {s'}, Listed snitch s' → dc ∈ dcRepFactor → DcPlaced dcRepFactor snitch tp (visited ++ [ep]) s' dc →
      (∀ dc', dc' ≠ dc → s'.dcReplicas dc' = s.dcReplicas dc' ∧ s'.seenRacks dc' = s.seenRacks dc' ∧
        s'.skippedDcEndpoints dc' = s.skippedDcEndpoints dc') → Placed dcRepFactor snitch tp (visited ++ [ep]) s' := by
    intro s' listed configured here others
    refine ⟨listed, fun dc' free => ?_, fun dc' configured' => ?_⟩
    · have ne : dc' ≠ dc := fun e => free (e ▸ configured)
      exact (others dc' ne).1.trans (placed.unwanted dc' free)
    · by_cases e : dc' = dc
      · exact e ▸ here
      · obtain ⟨dcReplicas, seenRacks, skipped⟩ := others dc' e
        exact (placed.placed dc' configured').frame (fun e' => e (e'.symm.trans own)) dcReplicas seenRacks skipped
  unfold NetworkTopologyStrategy.visit
  simp only [own]
  split_ifs with skip saw seen done
  · refine ⟨⟨placed.listed, placed.unwanted, fun dc' configured => ?_⟩, prefix_rfl⟩
    by_cases e : dc' = dc
    · subst e
      have here := placed.placed dc' configured
      have enough := hasSufficientReplicas_iff.1 (skip.resolve_left (not_not.2 configured))
      exact ⟨here.subset, here.skipped, here.card, here.racks, here.apart, .inl (here.card.antisymm enough)⟩
    · exact (placed.placed dc' configured).frame (fun e' => e (e'.symm.trans own)) rfl rfl rfl
  all_goals
    rw [not_or, not_not] at skip
    obtain ⟨configured, insufficient⟩ := skip
    have here := placed.placed dc configured
    have few := Nat.lt_of_not_le (mt hasSufficientReplicas_iff.2 insufficient)
  · exact ⟨assemble (placed.listed.addReplica own) configured (here.addReplica located mem few saw) fun dc' ne =>
      ⟨update_of_ne ne .., rfl, rfl⟩, pushBack_grows⟩
  · refine ⟨assemble ⟨placed.listed.nodup, placed.listed.mem⟩ configured
      (here.skip mem few (by simpa using saw) seen) fun dc' ne => ⟨rfl, rfl, update_of_ne ne ..⟩, prefix_rfl⟩
  · have card : ((addRack snitch s dc ep).dcReplicas dc).card ≤ wanted dcRepFactor tp dc := by
      rw [dcReplicas_addRack]
      exact (card_insert_le _ _).trans few
    have listed : Listed snitch (addRack snitch s dc ep) := ⟨(placed.listed.addReplica own).nodup,
      (placed.listed.addReplica own).mem⟩
    have there : ∀ ep' ∈ s.skippedDcEndpoints dc, snitch.getDatacenter ep' = dc := fun ep' mem' =>
      located.getDatacenter (here.skipped ep' mem')
    have filled := addSkipped_spec listed there card
    refine ⟨assemble filled.listed configured (here.addSkipped located mem few done filled) fun dc' ne => ⟨?_, ?_, ?_⟩,
      pushBack_grows.trans filled.grows⟩
    · exact (filled.others dc' ne).trans (update_of_ne ne ..)
    · exact (congrFun filled.seenRacks dc').trans (update_of_ne ne ..)
    · exact congrFun filled.skipped dc'
  · refine ⟨assemble ⟨(placed.listed.addReplica own).nodup, (placed.listed.addReplica own).mem⟩ configured
      (here.addRack mem few (by simpa using saw) seen (Bool.eq_false_iff.2 done)) fun dc' ne =>
      ⟨update_of_ne ne .., update_of_ne ne .., rfl⟩, pushBack_grows⟩

theorem Placed.foldl_visit (placed : Placed dcRepFactor snitch tp visited s)
    (mem : ∀ ep ∈ eps, ep ∈ tp.endpointsOf (snitch.getDatacenter ep)) :
    Placed dcRepFactor snitch tp (visited ++ eps) (eps.foldl (NetworkTopologyStrategy.visit dcRepFactor snitch tp) s) ∧
      s.replicas <+: (eps.foldl (NetworkTopologyStrategy.visit dcRepFactor snitch tp) s).replicas := by
  induction eps generalizing s visited with
  | nil => exact ⟨by simpa using placed, prefix_rfl⟩
  | cons ep eps ih =>
    obtain ⟨first, mem⟩ := forall_mem_cons.1 mem
    obtain ⟨placed', grows⟩ := placed.visit located first
    obtain ⟨placed'', grows'⟩ := ih placed' mem
    exact ⟨by simpa using placed'', grows.trans grows'⟩

omit [DecidableEq Ep] located in
theorem placed_init (dcRepFactor : Finmap fun _ : Dc => Nat) (snitch : Snitch Ep Dc Rack) (tp : Topology Ep Dc Rack) :
    Placed dcRepFactor snitch tp [] {} where
  listed := ⟨.nil, fun ep => by simp⟩
  unwanted _ _ := rfl
  placed dc _ := ⟨Finset.empty_subset _, nofun, Nat.zero_le _, rfl, fun _ => rfl, .inr nofun⟩

/-- When all endpoints of the datacenter were met, there are as many replicas as wanted. -/
theorem DcPlaced.card_eq (placed : DcPlaced dcRepFactor snitch tp visited s dc)
    (all : ∀ ep ∈ tp.endpointsOf dc, ep ∈ visited) : (s.dcReplicas dc).card = wanted dcRepFactor tp dc := by
  refine placed.progress.elim id fun progress => placed.card.antisymm ?_
  have known : ∀ ep ∈ tp.endpointsOf dc, ep ∈ s.dcReplicas dc ∨ sawAllRacks tp s dc = false ∧
      ep ∈ s.skippedDcEndpoints dc ∧ snitch.getRack ep ∈ s.seenRacks dc := fun ep mem =>
    progress ep (all ep mem) (located.getDatacenter mem)
  cases saw : sawAllRacks tp s dc with
  | true =>
    have subset : tp.endpointsOf dc ⊆ s.dcReplicas dc := fun ep mem => (known ep mem).resolve_right fun h => by
      rw [saw] at h
      exact absurd h.1 nofun
    exact (min_le_left _ _).trans (Finset.card_le_card subset)
  | false =>
    -- every rack was seen with one of its endpoints
    have subset : (tp.endpointsOf dc).image snitch.getRack ⊆ s.seenRacks dc := by
      intro rack listed
      obtain ⟨ep, mem, rfl⟩ := Finset.mem_image.1 listed
      rcases known ep mem with h | h
      · exact placed.racks ▸ mem_image_of_mem _ h
      · exact h.2.2
    have eq := (placed.seenRacks_subset located).antisymm (located.keys_racksOf dc ▸ subset)
    rw [sawAllRacks, eq] at saw
    simp at saw

/-- They are in as many racks as they can be. -/
theorem DcPlaced.card_racks (placed : DcPlaced dcRepFactor snitch tp visited s dc)
    (card : (s.dcReplicas dc).card = wanted dcRepFactor tp dc) :
    ((s.dcReplicas dc).image snitch.getRack).card =
      min (getReplicationFactor dcRepFactor dc) (tp.racksOf dc).keys.card := by
  have fewer : (tp.racksOf dc).keys.card ≤ (tp.endpointsOf dc).card := by
    rw [located.keys_racksOf]
    exact Finset.card_image_le
  have seen := Finset.card_le_card (placed.seenRacks_subset located)
  have image : (s.seenRacks dc).card ≤ (s.dcReplicas dc).card := by
    rw [placed.racks]
    exact Finset.card_image_le
  have apart := placed.apart
  rw [sawAllRacks, decide_eq_false_iff_not] at apart
  rw [← placed.racks]
  unfold wanted at card
  by_cases saw : (s.seenRacks dc).card = (tp.racksOf dc).keys.card
  · omega
  · omega

/-- The first endpoint that is met in a datacenter with replicas is the first replica. -/
theorem head?_foldl_visit (dcRepFactor : Finmap fun _ : Dc => Nat) (mem : ∀ ep ∈ eps, ep ∈ tp.endpointsOf (snitch.getDatacenter ep)) :
    (eps.foldl (visit dcRepFactor snitch tp) {}).replicas.head? =
      eps.find? fun ep => decide (getReplicationFactor dcRepFactor (snitch.getDatacenter ep) ≠ 0) := by
  induction eps with
  | nil => rfl
  | cons ep eps ih =>
    obtain ⟨first, mem⟩ := forall_mem_cons.1 mem
    rw [foldl_cons, find?_cons]
    by_cases none : getReplicationFactor dcRepFactor (snitch.getDatacenter ep) = 0
    · have same : visit dcRepFactor snitch tp {} ep = {} := by
        unfold visit
        rw [if_pos (.inr (hasSufficientReplicas_iff.2 (by simp [wanted, none])))]
      simp only [same, none, ne_eq, not_true_eq_false, decide_false]
      exact ih mem
    · have configured : snitch.getDatacenter ep ∈ dcRepFactor := by
        by_contra free
        exact none (by rw [getReplicationFactor, Finmap.lookup_eq_none.2 free, Option.getD_none])
      have few : ¬ hasSufficientReplicas dcRepFactor tp {} (snitch.getDatacenter ep) = true := by
        rw [hasSufficientReplicas_iff]
        have := card_pos.2 ⟨ep, first⟩
        simp only [wanted, Finset.card_empty]
        omega
      have saw : ¬ sawAllRacks tp {} (snitch.getDatacenter ep) = true := by
        have := card_pos.2 ⟨_, mem_image_of_mem snitch.getRack first⟩
        rw [← located.keys_racksOf] at this
        rw [sawAllRacks, decide_eq_true_iff]
        rw [Finset.card_empty]
        omega
      have start : (visit dcRepFactor snitch tp {} ep).replicas = [ep] := by
        unfold visit
        dsimp only
        rw [if_neg (by simp [configured, few]), if_neg saw, if_neg (Finset.notMem_empty _)]
        split_ifs <;> rfl
      have grows := (((placed_init dcRepFactor snitch tp).visit located first).1.foldl_visit located mem).2
      rw [start] at grows
      obtain ⟨rest, eq⟩ := grows
      simp [none, ← eq]

end NetworkTopologyStrategy

/-- The topology and the ring have the same endpoints, each where the snitch says. -/
structure TokenMetadata.Settled [LinearOrder T] (tm : TokenMetadata T Ep Dc Rack) (snitch : Snitch Ep Dc Rack) : Prop where
  consistent : tm.Consistent
  located : ∀ {ep loc}, tm.topology.currentLocations.lookup ep = some loc →
    loc = (snitch.getDatacenter ep, snitch.getRack ep)
  owners : ∀ {ep}, (tm.topology.currentLocations.lookup ep).isSome = true ↔ ∃ t, (t, ep) ∈ tm.tokenToEndpoint

variable {tm : TokenMetadata T Ep Dc Rack} {snitch : Snitch Ep Dc Rack}

theorem TokenMetadata.Settled.populated [LinearOrder T]
    (settled : tm.Settled snitch) (some : tm.sortedTokens ≠ []) : tm.Populated :=
  ⟨settled.consistent.toOrdered, settled.consistent.agrees, some, fun p hp => settled.owners.2 ⟨p.1, hp⟩⟩

/-- `network_topology_strategy` places replicas as promised: on distinct endpoints, in each datacenter as many
as its replication factor and its endpoints allow and in as many racks as there can be, and the first on the
first endpoint clockwise that is in a datacenter with replicas. -/
theorem network_topology_placement [LinearOrder T] (dcRepFactor : Finmap fun _ : Dc => Nat)
    (settled : tm.Settled snitch) (some : tm.sortedTokens ≠ []) (searchToken : T) :
    ∃ eps, calculateNaturalEndpoints dcRepFactor snitch searchToken tm = .ok eps ∧ eps.Nodup ∧
      (∀ dc ∈ dcRepFactor, (eps.filter fun ep => snitch.getDatacenter ep = dc).length =
        min (getReplicationFactor dcRepFactor dc) (tm.topology.endpointsOf dc).card) ∧
      (∀ ep ∈ eps, snitch.getDatacenter ep ∈ dcRepFactor) ∧
      (∀ dc ∈ dcRepFactor, ((eps.filter fun ep => snitch.getDatacenter ep = dc).map snitch.getRack).toFinset.card =
        min (getReplicationFactor dcRepFactor dc) (tm.topology.racksOf dc).keys.card) ∧
      eps.head? = ((tm.ownersFrom searchToken).map Prod.snd).find? fun ep =>
        decide (NetworkTopologyStrategy.getReplicationFactor dcRepFactor (snitch.getDatacenter ep) ≠ 0) := by
  have located : tm.topology.Located snitch := ⟨settled.consistent.agrees, settled.consistent.inhabited, settled.located⟩
  refine ⟨_, calculateNaturalEndpoints_eq (settled.populated some) searchToken, ?_⟩
  have visits : ∀ ep ∈ (tm.ownersFrom searchToken ++ (tm.ownersFrom searchToken).take 1).map Prod.snd,
      ep ∈ tm.topology.endpointsOf (snitch.getDatacenter ep) := by
    intro ep mem
    obtain ⟨p, hp, rfl⟩ := mem_map.1 mem
    exact located.mem_endpointsOf (settled.owners.2 ⟨p.1, TokenMetadata.mem_walk_owners hp⟩)
  have placed := ((NetworkTopologyStrategy.placed_init dcRepFactor snitch tm.topology).foldl_visit located visits).1
  have head := head?_foldl_visit located dcRepFactor visits
  generalize ((tm.ownersFrom searchToken ++ (tm.ownersFrom searchToken).take 1).map Prod.snd).foldl
    (visit dcRepFactor snitch tm.topology) {} = s at placed head
  have replicas : ∀ {dc}, dc ∈ dcRepFactor →
      (s.replicas.filter fun ep => snitch.getDatacenter ep = dc).toFinset = s.dcReplicas dc := by
    intro dc configured
    ext ep
    rw [mem_toFinset, mem_filter, decide_eq_true_iff, placed.listed.mem]
    refine ⟨fun h => h.2 ▸ h.1, fun h => ?_⟩
    have own := located.getDatacenter ((placed.placed dc configured).subset h)
    exact ⟨own.symm ▸ h, own⟩
  have all : ∀ dc, ∀ ep ∈ tm.topology.endpointsOf dc,
      ep ∈ [] ++ (tm.ownersFrom searchToken ++ (tm.ownersFrom searchToken).take 1).map Prod.snd := by
    intro dc ep mem
    obtain ⟨rack, there⟩ := settled.consistent.agrees.endpoints.1 mem
    obtain ⟨t, owner⟩ := settled.owners.1 (Option.isSome_iff_exists.2 ⟨_, there⟩)
    exact mem_map.2 ⟨(t, ep), mem_append_left _ (mem_clockwise.2 owner), rfl⟩
  refine ⟨placed.listed.nodup, fun dc configured => ?_, fun ep mem => ?_, fun dc configured => ?_, head.trans ?_⟩
  · have card := (placed.placed dc configured).card_eq located (all dc)
    rw [← toFinset_card_of_nodup (placed.listed.nodup.filter _), replicas configured, card, min_comm]
    rfl
  · by_contra free
    have mem := (placed.listed.mem ep).1 mem
    rw [placed.unwanted _ free] at mem
    exact Finset.notMem_empty _ mem
  · have image : ∀ l : List Ep, (l.map snitch.getRack).toFinset = l.toFinset.image snitch.getRack := by
      intro l
      ext rack
      simp
    have card := (placed.placed dc configured).card_eq located (all dc)
    rw [image, replicas configured, (placed.placed dc configured).card_racks located card]
  · -- the walk ends where it began
    have repeats : ∀ (l : List Ep) p, (l ++ l.take 1).find? p = l.find? p := by
      intro l p
      cases l with
      | nil => rfl
      | cons a l => cases hp : p a <;> simp [hp]
    rw [map_append, map_take, repeats]

/-- Two endpoints in two racks: both are replicas, and the one that owns the token comes first. -/
theorem network_topology_placement_two :
    ∃ (tm : TokenMetadata Nat Nat Nat Nat) (snitch : Snitch Nat Nat Nat), tm.Settled snitch ∧ tm.sortedTokens = [1, 2] ∧
      ∃ eps, calculateNaturalEndpoints (Finmap.singleton 0 2) snitch 2 tm = .ok eps ∧
        eps.Nodup ∧ eps.head? = some 1 := by
  let snitch : Snitch Nat Nat Nat := ⟨fun _ => 0, fun ep => ep⟩
  let tm : TokenMetadata Nat Nat Nat Nat := (TokenMetadata.updateNormalTokens {} snitch ⟨[(0, [1]), (1, [2])], by decide⟩).1
  have consistent : tm.Consistent := by
    have careful : TokenMetadata.Careful {} (.updateNormalTokens snitch ⟨[(0, [1]), (1, [2])], by decide⟩) :=
      ⟨by decide, .inr nofun, fun ep mem loc current => nomatch current⟩
    exact TokenMetadata.consistent_init.step careful rfl
  have lookup : ∀ ep, tm.topology.currentLocations.lookup ep =
      if ep = 1 then some (0, 1) else if ep = 0 then some (0, 0) else none := by
    intro ep
    change (((({} : Topology Nat Nat Nat).addEndpoint snitch 0).addEndpoint snitch 1).currentLocations).lookup ep = _
    rw [Topology.lookup_addEndpoint, Topology.lookup_addEndpoint]
    rfl
  have settled : tm.Settled snitch := by
    refine ⟨consistent, fun {ep loc} there => ?_, fun {ep} => ?_⟩
    · rw [lookup] at there
      split_ifs at there with one zero
      · cases there
        rw [one]
      · cases there
        rw [zero]
    · rw [lookup]
      have owners : tm.tokenToEndpoint = [(1, 0), (2, 1)] := rfl
      rw [owners]
      split_ifs with one zero
      · simp [one]
      · simp [zero]
      · simp [one, zero]
  have some : tm.sortedTokens ≠ [] := by decide
  obtain ⟨eps, found, nodup, -, -, -, head⟩ := network_topology_placement (Finmap.singleton 0 2) settled some 2
  exact ⟨tm, snitch, settled, rfl, eps, found, nodup, head⟩

end ScyllaMoon.Locator
