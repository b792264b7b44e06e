import ScyllaMoon.Mvcc.Alike
import ScyllaMoon.Mvcc.Usertable

/-!
# Relocation

Region compaction moves a `partition_version` or the object that holds a `partition_entry` to a new
address: its move constructor runs there and the old object is destroyed. The move constructors carry
the list hook, the back reference and the partition. They do not carry the version number, the
snapshot and the counters, nor do they follow the pointers to the moved object that are not back
references: a snapshot's `_version` and `last_version`.
-/

namespace ScyllaMoon.Mvcc

open Lib List Function

variable {S V P : Type}

namespace Heap

/-- `partition_version(partition_version&&)` at a new address, then the destructor at the old one. The
back reference follows; `version_number` and `_snapshot` start afresh. -/
def relocateVersion (w : Heap S P) (a : Addr) : Except Fault (Heap S P) := do
  let v ← w.getVersion a
  let new := w.brk
  let w := { w with
    links := w.links.relocate a new
    versions := update w.versions new (some { backref := v.backref, partition := v.partition })
    brk := w.brk + 1 }
  let w ← match v.backref with
    | none => pure w
    | some r => w.setRefVersion r (some new)
  return { w with versions := update w.versions a none }

/-- `partition_entry(partition_entry&&)` at the address `e`, then the destructor at the old one, which
finds its `_version` empty. A `memtable_entry` moves its `_pe` with this constructor, and its schema and
key as they are. -/
def relocateEntry (w : Heap S P) (e : EntryAddr) : Except Fault (Heap S P) := do
  let r := w.entry.version
  let w ← w.attachRef r (.ofEntry e)
  let w ← match w.entry.snapshot with
    | none => pure w
    | some s => do
      let snp ← w.getSnapshot s
      pure (w.putSnapshot s { snp with entry := some e })
  return { w with
    self := e
    entry := { snapshot := w.entry.snapshot, version := { version := r.version, evictable := r.evictable } } }

end Heap

/-- A request, or a move by the compactor. -/
inductive Event (S V P : Type) where
  | request (op : Op S V P)
  | moveVersion (a : Addr)
  | moveEntry (e : EntryAddr)

namespace Heap

variable [PartitionOps S V P]

/-- Only requests are answered. -/
def event (w : Heap S P) : Event S V P → Except Fault (Heap S P × Option (Answer P))
  | .request op => do
    let (w, o) ← w.step op
    return (w, some o)
  | .moveVersion a => return (← w.relocateVersion a, none)
  | .moveEntry e => return (← w.relocateEntry e, none)

/-- The move loses nothing. A version that moves is not pinned; if it is on the chain it has number 0, it is
not `last_version`, and the entry is registered with it if it is the newest. An entry that moves has not
been read or written at any version yet. -/
def LosesNothing (w : Heap S P) : Event S V P → Prop
  | .request _ => True
  | .moveVersion a => ∀ v, w.versions a = some v → v.snapshot = none ∧
      (a ∈ w.chain → v.versionNumber = 0 ∧ w.entry.lastVersion ≠ some a ∧
        (w.entry.version.version = some a → v.backref ≠ none))
  | .moveEntry _ => w.entry.highestVersionRead = 0 ∧ w.entry.highestVersionWritten = 0 ∧
      w.entry.numVersions = 0 ∧ w.entry.lastVersion = none

end Heap

/-- The request of an event, with its answer. -/
def Event.request? : Event S V P × Option (Answer P) → Option (Op S V P × Answer P)
  | (.request op, some o) => some (op, o)
  | _ => none

namespace Sim

variable {w : Heap S P} {l : List Addr} {c : Chain S P}

/-- The chain of addresses after `a` moved to `b`. -/
def renamed (l : List Addr) (a b : Addr) : List Addr :=
  l.map (Function.update id a b)

variable {a b : Addr}

theorem renamed_of_notMem (ha : a ∉ l) : renamed l a b = l := by
  refine (map_congr_left fun x hx => ?_).trans (map_id l)
  have hxa : x ≠ a := fun e => ha (e ▸ hx)
  exact Function.update_of_ne hxa ..

theorem renamed_split {xs ys : List Addr} (nodup : (xs ++ a :: ys).Nodup) :
    renamed (xs ++ a :: ys) a b = xs ++ b :: ys := by
  have ha : a ∉ xs ++ ys := (nodup_middle.1 nodup).notMem
  simp only [mem_append, not_or] at ha
  rw [renamed, map_append, map_cons, Function.update_self]
  exact congrArg₂ _ (renamed_of_notMem ha.1) (congrArg _ (renamed_of_notMem ha.2))

theorem head?_renamed : (renamed l a b).head? = l.head?.map (Function.update id a b) :=
  head?_map

variable {v : PartitionVersion P}

/-- The links after a move are those of the renamed chain. -/
theorem relocate_chain (h : Sim w l c) (hv : w.versions a = some v) :
    (w.links.relocate a w.brk).IsChain (renamed l a w.brk) := by
  by_cases ha : a ∈ l
  · obtain ⟨xs, ys, rfl⟩ := append_of_mem ha
    rw [renamed_split h.chain.nodup]
    exact h.chain.relocate h.brk_notMem
  · rw [renamed_of_notMem ha, Links.relocate_of_unlinked (h.unlisted hv ha)]
    refine ⟨h.chain.seg.congr fun x hx => ?_, h.chain.nodup⟩
    have hxa : x ≠ a := fun e => ha (e ▸ hx)
    have hxb : x ≠ w.brk := fun e => h.brk_notMem (e ▸ hx)
    rw [update_of_ne hxa, update_of_ne hxb]

variable {u : PartitionVersion P}

theorem relocate_unlisted (h : Sim w l c) {x : Addr} (hv : w.versions a = some v)
    (hu : x = w.brk ∨ x ≠ a ∧ w.versions x = some u) (hx : x ∉ renamed l a w.brk) :
    w.links.relocate a w.brk x = {} := by
  have hab : a ≠ w.brk := Nat.ne_of_lt (h.allocated_lt hv)
  by_cases ha : a ∈ l
  · obtain ⟨xs, ys, rfl⟩ := append_of_mem ha
    rw [renamed_split h.chain.nodup] at hx
    simp only [mem_append, mem_cons, not_or] at hx
    obtain ⟨hxa, hu⟩ := hu.resolve_left hx.2.1
    have hxl : x ∉ xs ++ a :: ys := by simpa using ⟨hx.1, hxa, hx.2.2⟩
    rw [h.chain.relocate_of_notMem h.brk_notMem hxl hx.2.1]
    exact h.unlisted hu hxl
  · rw [renamed_of_notMem ha] at hx
    rw [Links.relocate_of_unlinked (h.unlisted hv ha)]
    rcases hu with rfl | ⟨hxa, hu⟩
    · rw [update_of_ne hab.symm, update_self]
    · rw [update_of_ne hxa]
      by_cases hxb : x = w.brk
      · rw [hxb, update_self]
      · rw [update_of_ne hxb]
        exact h.unlisted hu hx

/-- The heap after `a` moved to a fresh address. -/
def moved (w : Heap S P) (a : Addr) (v : PartitionVersion P) : Heap S P :=
  { w with
    links := w.links.relocate a w.brk
    versions := Function.update
      (Function.update w.versions w.brk (some { backref := v.backref, partition := v.partition })) a none
    brk := w.brk + 1
    entry := { w.entry with version := { w.entry.version with
      version := w.entry.version.version.map (Function.update id a w.brk) } } }

/-- The back reference lets the entry follow a version that moves, if it is the newest. -/
theorem relocateVersion_eq (h : Sim w l c) (hv : w.versions a = some v)
    (head : w.entry.version.version = some a → v.backref ≠ none) : w.relocateVersion a = .ok (moved w a v) := by
  have hb := h.backrefs hv
  rw [Heap.relocateVersion, Heap.getVersion_of hv, ok_bind]
  by_cases hh : w.entry.version.version = some a
  · have hreg := head hh
    split at hb
    · simp only [hb, Heap.setRefVersion, if_true, ok_bind, pure_eq_ok, moved, hh, Option.map_some, Function.update_self]
    · exact absurd hb hreg
  · rw [if_neg fun e => hh (h.head.trans e.2)] at hb
    have hsame : w.entry.version.version.map (Function.update id a w.brk) = w.entry.version.version := by
      cases hw : w.entry.version.version with
      | none => rfl
      | some x =>
        have hxa : x ≠ a := fun e => hh (e ▸ hw)
        rw [Option.map_some, update_of_ne hxa, id]
    simp only [hb, ok_bind, pure_eq_ok, moved, hsame]

theorem moved_versions {x : Addr} (hu : (moved w a v).versions x = some u) :
    x ≠ a ∧ (x = w.brk ∧ u = { backref := v.backref, partition := v.partition } ∨ x ≠ w.brk ∧ w.versions x = some u) := by
  simp only [moved] at hu
  have hxa : x ≠ a := by
    rintro rfl
    rw [Function.update_self] at hu
    cases hu
  rw [Function.update_of_ne hxa] at hu
  refine ⟨hxa, ?_⟩
  by_cases hxb : x = w.brk
  · rw [hxb, Function.update_self, Option.some.injEq] at hu
    exact .inl ⟨hxb, hu.symm⟩
  · rw [Function.update_of_ne hxb] at hu
    exact .inr ⟨hxb, hu⟩

theorem moved_elem? : (moved w a v).elem? =
    Function.update (Function.update w.elem? w.brk (some { number := 0, partition := v.partition })) a none := by
  simp only [Heap.elem?, moved, Function.comp_update]
  rfl

/-- A version that loses nothing takes its place in the list along. -/
theorem moved_sim (h : Sim w l c) (hv : w.versions a = some v) (unpinned : v.snapshot = none)
    (plain : a ∈ l → v.versionNumber = 0 ∧ w.entry.lastVersion ≠ some a) :
    Sim (moved w a v) (renamed l a w.brk) c := by
  have hab : a ≠ w.brk := Nat.ne_of_lt (h.allocated_lt hv)
  constructor
  · exact h.relocate_chain hv
  · simpa [renamed] using h.nonempty
  · rw [head?_renamed, ← h.head]
    rfl
  · exact h.unset
  · intro x hx
    have hxa : x ≠ a := Nat.ne_of_gt (Nat.lt_of_lt_of_le (Nat.lt_succ_of_lt (h.allocated_lt hv)) hx)
    have hxb : x ≠ w.brk := Nat.ne_of_gt hx
    simp only [moved, Function.update_of_ne hxa, Function.update_of_ne hxb]
    exact h.fresh (Nat.le_of_succ_le hx)
  · rw [moved_elem?, renamed, map_map, ← h.elems]
    refine map_congr_left fun x hx => ?_
    have hxb : x ≠ w.brk := fun e => h.brk_notMem (e ▸ hx)
    by_cases hxa : x = a
    · subst hxa
      rw [comp, update_self, update_of_ne hab.symm, update_self, Heap.elem?_of hv,
        PartitionVersion.toElem, (plain hx).1, unpinned]
    · rw [comp, update_of_ne hxa, id, update_of_ne hxa, update_of_ne hxb]
  · have hlast := h.last
    cases hcl : c.last with
    | null => rw [hcl] at hlast; exact hlast
    | dangling =>
      rw [hcl] at hlast
      obtain ⟨x, hx, hlt, hvx⟩ := hlast
      refine ⟨x, hx, Nat.lt_succ_of_lt hlt, ?_⟩
      by_contra hne
      obtain ⟨u, hu⟩ := Option.ne_none_iff_exists'.1 hne
      rcases (moved_versions hu).2 with ⟨hxb, -⟩ | ⟨-, hold⟩
      · exact Nat.ne_of_lt hlt hxb
      · cases hvx.symm.trans hold
    | idx i =>
      rw [hcl] at hlast
      obtain ⟨x, hx, hi⟩ := hlast
      have hxa : x ≠ a := by
        rintro rfl
        exact (plain (mem_of_getElem? hi)).2 hx
      refine ⟨x, hx, ?_⟩
      rw [renamed, getElem?_map, hi, Option.map_some, Function.update_of_ne hxa, id]
  · exact h.hvr
  · exact h.hvw
  · exact h.num
  · exact h.snaps
  · exact h.next
  · rw [moved_elem?]
    exact h.pins.relocate (Heap.elem?_of hv) unpinned rfl
  · intro x u hu hx
    obtain ⟨hxa, ⟨hxb, -⟩ | ⟨-, hold⟩⟩ := moved_versions hu
    · exact h.relocate_unlisted (u := v) hv (.inl hxb) hx
    · exact h.relocate_unlisted hv (.inr ⟨hxa, hold⟩) hx
  · intro x u hu
    rw [head?_renamed]
    have hhead : ∀ y, l.head? = some y → y ≠ w.brk := fun y hy e => h.brk_notMem (e ▸ mem_of_head? hy)
    obtain ⟨hxa, ⟨rfl, rfl⟩ | ⟨hxb, hold⟩⟩ := moved_versions hu
    · have hiff : l.head?.map (Function.update id a w.brk) = some w.brk ↔ l.head? = some a := by
        cases hl : l.head? with
        | none => simp
        | some y =>
          by_cases hya : y = a
          · simp [hya]
          · simp [hya, hhead y hl]
      simp only [hiff]
      exact h.backrefs hv
    · have hiff : l.head?.map (Function.update id a w.brk) = some x ↔ l.head? = some x := by
        cases hl : l.head? with
        | none => simp
        | some y =>
          by_cases hya : y = a
          · simp [hya, Ne.symm hxa, Ne.symm hxb]
          · simp [update_of_ne hya]
      simp only [hiff]
      exact h.backrefs hold

theorem relocateEntry_sim (h : Sim w l c) {e : EntryAddr} (hvr : w.entry.highestVersionRead = 0)
    (hvw : w.entry.highestVersionWritten = 0) (num : w.entry.numVersions = 0) (last : w.entry.lastVersion = none) :
    ∃ w', w.relocateEntry e = .ok w' ∧ Sim w' l { c with registered := true } := by
  obtain ⟨a, tl, v, -, hl, hh, hv, -⟩ := h.exists_head
  let v' : PartitionVersion P := { v with backref := some (.ofEntry e) }
  let w' : Heap S P := { w with
    versions := Function.update w.versions a (some v')
    self := e
    entry := { version := { version := some a, evictable := w.entry.version.evictable } } }
  have hel : w'.elem? = w.elem? := by
    funext x
    simp only [w', Heap.elem?, comp]
    by_cases hxa : x = a
    · rw [hxa, update_self, hv]
      rfl
    · rw [update_of_ne hxa]
  have hnone : ∀ {x}, w.versions x = none → w'.versions x = none := fun {x} hx => by
    have hxa : x ≠ a := fun e => by cases (e ▸ hx).symm.trans hv
    exact (Function.update_of_ne hxa ..).trans hx
  have hold : ∀ {x u}, w'.versions x = some u → ∃ u', w.versions x = some u' := fun {x u} hu => by
    by_contra hne
    cases (hnone (Option.eq_none_iff_forall_ne_some.2 fun u' h => hne ⟨u', h⟩)).symm.trans hu
  refine ⟨w', ?_, ?_⟩
  · simp [Heap.relocateEntry, Heap.attachRef, hh, Heap.modifyVersion_of hv, h.unset, w', v']
  constructor
  · exact h.chain
  · exact h.nonempty
  · rw [hl]
    rfl
  · rfl
  · exact fun hx => hnone (h.fresh hx)
  · rw [hel]
    exact h.elems
  · have hlast := h.last
    rw [show c.last = .null by
      cases hcl : c.last with
      | null => rfl
      | dangling =>
        rw [hcl] at hlast
        obtain ⟨x, hx, -⟩ := hlast
        cases last.symm.trans hx
      | idx i =>
        rw [hcl] at hlast
        obtain ⟨x, hx, -⟩ := hlast
        cases last.symm.trans hx]
    rfl
  · exact hvr.symm.trans h.hvr
  · exact hvw.symm.trans h.hvw
  · exact num.symm.trans h.num
  · exact h.snaps
  · exact h.next
  · rw [hel]
    exact h.pins
  · intro x u hu hx
    obtain ⟨u', hu'⟩ := hold hu
    exact h.unlisted hu' hx
  · intro x u hu
    by_cases hxa : x = a
    · subst hxa
      cases (Function.update_self ..).symm.trans hu
      rw [if_pos ⟨rfl, by rw [hl]; rfl⟩]
    · have hu' : w.versions x = some u := (Function.update_of_ne hxa ..).symm.trans hu
      have hhead : l.head? ≠ some x := by
        rw [hl]
        exact fun e => hxa (Option.some.inj e).symm
      rw [h.backrefs hu', if_neg fun hh => hhead hh.2, if_neg fun hh => hhead hh.2]

end Sim

namespace Heap

variable [PartitionOps S V P] {w w' w₂ : Heap S P}

variable {o : Option (Answer P)}

theorem event_request {op : Op S V P} (hs : w.event (.request op) = .ok (w', o)) :
    ∃ o', o = some o' ∧ w.step op = .ok (w', o') := by
  simp only [event] at hs
  cases hw : w.step op with
  | error f => simp [hw] at hs
  | ok p =>
    simp only [hw, ok_bind, pure_eq_ok, Except.ok.injEq, Prod.mk.injEq] at hs
    obtain ⟨rfl, rfl⟩ := hs
    exact ⟨p.2, rfl, rfl⟩

/-- A move that loses nothing does not show. -/
theorem Alike.moved (h : w.Alike w₂) {ev : Event S V P} (keeps : w.LosesNothing ev) (hs : w.event ev = .ok (w', o))
    (silent : Event.request? (ev, o) = none) : w'.Alike w₂ := by
  cases ev with
  | request op =>
    obtain ⟨_, rfl, -⟩ := event_request hs
    cases silent
  | moveVersion a =>
    refine h.of_sim fun l c sim => ?_
    simp only [event] at hs
    cases hv : w.versions a with
    | none => simp [relocateVersion, getVersion, hv] at hs
    | some v =>
      obtain ⟨unpinned, plain⟩ := keeps v hv
      rw [sim.chain_eq] at plain
      have head : w.entry.version.version = some a → v.backref ≠ none := fun hh =>
        (plain (mem_of_head? (sim.head.symm.trans hh))).2.2 hh
      rw [sim.relocateVersion_eq hv head, ok_bind, pure_eq_ok, Except.ok.injEq, Prod.mk.injEq] at hs
      rw [← hs.1]
      exact ⟨_, c.registered, sim.moved_sim hv unpinned fun ha => ⟨(plain ha).1, (plain ha).2.1⟩⟩
  | moveEntry e =>
    refine h.of_sim fun l c sim => ?_
    obtain ⟨hvr, hvw, num, last⟩ := keeps
    obtain ⟨w'', hw, sim'⟩ := sim.relocateEntry_sim hvr hvw num last
    rw [event, hw, ok_bind, pure_eq_ok, Except.ok.injEq, Prod.mk.injEq] at hs
    rw [← hs.1]
    exact ⟨l, true, sim'⟩

end Heap

/-- Requests interleaved with moves that lose nothing are answered as they would be without the moves, and
so is every request that comes next. -/
theorem relocation_transparent [PartitionOps S V P] (e : EntryAddr) (mp : P)
    {tr : List (Event S V P × Option (Answer P))} {w : Heap S P}
    (run : Run Heap.event (fun _ w ev => w.LosesNothing ev) (Heap.ofPartition e mp) tr w) :
    ∃ w₂, Run Heap.step (fun _ _ _ => True) (Heap.ofPartition e mp) (tr.filterMap Event.request?) w₂ ∧
      ∀ op : Op S V P, answer (w.step op) = answer (w₂.step op) := by
  have start : (Heap.ofPartition e mp : Heap S P).Alike (Heap.ofPartition e mp) := Heap.alike_refl (Sim.ofPartition e mp)
  obtain ⟨w₂, run₂, alike⟩ := run.visible Heap.step Heap.Alike Event.request?
    (fun _ _ _ _ _ _ keeps hs h silent => h.moved keeps hs silent)
    (fun _ w ev w' o w₂ op o' _ hs h shown => by
      cases ev with
      | request op =>
        obtain ⟨o', rfl, hw⟩ := Heap.event_request hs
        cases shown
        exact h.step_ok hw
      | moveVersion | moveEntry => cases shown)
    start
  exact ⟨w₂, run₂, fun op => (alike.step op).answer_eq⟩

abbrev UsertableEvent :=
  Event Mutation.TableSchema (Mutation.MutationPartitionView Nat Mutation.Cell)
    (Mutation.MutationPartition Nat Mutation.Cell)

theorem relocation_transparent_new_entry :
    ∃ w w₂, after Heap.event newEntry [.moveEntry 5, .moveVersion 0, .request (put 1 0 7)] = some w ∧
      Run Heap.step (fun _ _ _ => True) newEntry [(put 1 0 7, .write ⟨true, 1⟩)] w₂ ∧
      ∀ op : UsertableOp, answer (w.step op) = answer (w₂.step op) := by
  have moved₁ : newEntry.LosesNothing (.moveEntry 5 : UsertableEvent) := ⟨rfl, rfl, rfl, rfl⟩
  have run₁ : Run Heap.event (fun _ w ev => w.LosesNothing ev) newEntry _ _ := .snoc .init moved₁ rfl
  have run₂ := run₁.snoc (i := .moveVersion 0)
    (by intro v hv; cases hv; exact ⟨rfl, fun _ => ⟨rfl, nofun, fun _ => nofun⟩⟩) rfl
  have run₃ := run₂.snoc (i := (.request (put 1 0 7))) (by trivial) rfl
  obtain ⟨w₂, hrun, hsame⟩ := relocation_transparent 0 _ run₃
  exact ⟨_, w₂, rfl, hrun, hsame⟩

/-- A version that moves loses its number, and a read at that number no longer finds it. -/
theorem relocation_loses_number : ∃ w', (entryAfter [put 1 0 7]).relocateVersion 1 = .ok w' ∧
      servedNumber (answer ((entryAfter [put 1 0 7]).step (readAt 1))) = some 1 ∧
      servedNumber (answer (w'.step (readAt 1))) = some 0 :=
  ⟨_, rfl, rfl, rfl⟩

end ScyllaMoon.Mvcc
