import ScyllaMoon.Mvcc.Chain

/-!
# Snapshots and the versions they pin

A live `partition_snapshot` points at a version and that version points back through its own
`_snapshot` member. `Pins` states it for a whole heap, given as the functions from addresses to
versions and from snapshot ids to snapshots, and one lemma says how each change of the heap keeps it.
-/

namespace ScyllaMoon.Mvcc

open Lib Function

variable {S P : Type}

/-- Live snapshots and the versions they pin point at each other. A snapshot on a version that is
allocated but not on the chain `l` keeps its partition. -/
structure Pins (elem : Addr → Option (Elem P)) (snapshots : SnapshotId → Option (PartitionSnapshot S))
    (brk : Addr) (next : SnapshotId) (l : List Addr) (detached : SnapshotId → Option P) :
    Prop where
  pinned : ∀ {a e s}, elem a = some e → e.snapshot = some s →
    ∃ snp, snapshots s = some snp ∧ snp.version.version = some a
  holds : ∀ {s snp}, snapshots s = some snp → 0 < snp.useCount ∧
    ∃ a, a < brk ∧ snp.version.version = some a ∧ ∀ e, elem a = some e → e.snapshot = some s
  alone : ∀ {s snp a e}, snapshots s = some snp → snp.version.version = some a → elem a = some e →
    a ∉ l → detached s = some e.partition
  detached : ∀ {s p}, detached s = some p →
    ∃ snp a e, snapshots s = some snp ∧ snp.version.version = some a ∧ elem a = some e ∧ a ∉ l
  fresh : ∀ {s}, next ≤ s → snapshots s = none

namespace Pins

variable {elem : Addr → Option (Elem P)} {snapshots : SnapshotId → Option (PartitionSnapshot S)}
  {brk : Addr} {next : SnapshotId} {l : List Addr} {detached : SnapshotId → Option P}

variable {a : Addr} {e : Elem P} {s : SnapshotId} {snp : PartitionSnapshot S}

section

variable (p : Pins elem snapshots brk next l detached)
include p

/-- A version pinned by two live snapshots has only one. -/
theorem inj (ha : elem a = some e) (hs : snapshots s = some snp)
    (hv : snp.version.version = some a) : e.snapshot = some s := by
  obtain ⟨-, b, -, hb, he⟩ := p.holds hs
  obtain rfl : a = b := by rw [hv] at hb; exact Option.some.inj hb
  exact he e ha

theorem below (hs : snapshots s = some snp) (hv : snp.version.version = some a) : a < brk := by
  obtain ⟨-, b, hlt, hb, -⟩ := p.holds hs
  cases hv.symm.trans hb
  exact hlt

/-- The versions change, but those that snapshots are on keep these, and their partitions once they are off the chain. -/
theorem transport {elem' : Addr → Option (Elem P)} {brk' : Addr} {l' : List Addr} (le : brk ≤ brk')
    (pinned : ∀ {a e}, elem' a = some e → e.snapshot = none ∨ ∃ e₀, elem a = some e₀ ∧ e₀.snapshot = e.snapshot)
    (alone : ∀ {s snp a}, snapshots s = some snp → snp.version.version = some a → a < brk →
      (∀ e, elem' a = some e → e.snapshot = some s) ∧ ∀ e, elem' a = some e ∧ a ∉ l' ↔ elem a = some e ∧ a ∉ l) :
    Pins elem' snapshots brk' next l' detached := by
  constructor
  · intro a e s ha hs
    obtain unpinned | ⟨e₀, ha₀, same⟩ := pinned ha
    · cases unpinned.symm.trans hs
    · exact p.pinned ha₀ (same.trans hs)
  · intro s snp hs
    obtain ⟨hu, a, hlt, hv, -⟩ := p.holds hs
    exact ⟨hu, a, Nat.lt_of_lt_of_le hlt le, hv, (alone hs hv hlt).1⟩
  · intro s snp a e hs hv ha hl
    obtain ⟨ha₀, hl₀⟩ := ((alone hs hv (p.below hs hv)).2 e).1 ⟨ha, hl⟩
    exact p.alone hs hv ha₀ hl₀
  · intro s q hd
    obtain ⟨snp, a, e, hs, hv, off⟩ := p.detached hd
    exact ⟨snp, a, e, hs, hv, ((alone hs hv (p.below hs hv)).2 e).2 off⟩
  · exact p.fresh

theorem push (unpinned : e.snapshot = none) :
    Pins (update elem brk (some e)) snapshots (brk + 1) next (brk :: l) detached := by
  refine p.transport (Nat.le_succ _) (fun {a e'} ha => ?_) fun {s snp a} hs hv hlt => ?_
  · by_cases hab : a = brk
    · subst hab
      rw [update_self, Option.some.injEq] at ha
      exact .inl (ha ▸ unpinned)
    · exact .inr ⟨e', (update_of_ne hab ..).symm.trans ha, rfl⟩
  · have hab := Nat.ne_of_lt hlt
    rw [update_of_ne hab, List.mem_cons, or_iff_right hab]
    exact ⟨fun e' ha => p.inj ha hs hv, fun _ => .rfl⟩

end

/-- A snapshot on an unlinked version stays on it, alone. -/
theorem unlink {xs ys : List Addr} (p : Pins elem snapshots brk next (xs ++ a :: ys) detached)
    (nodup : (xs ++ a :: ys).Nodup) (he : elem a = some e) :
    Pins elem snapshots brk next (xs ++ ys) (e.detach detached) where
  pinned := p.pinned
  holds := p.holds
  alone {s snp b e'} hs hv hb hl := by
    by_cases hba : b = a
    · subst hba
      obtain rfl : e = e' := by rw [he] at hb; exact Option.some.inj hb
      simp [Elem.detach, p.inj he hs hv]
    · have hbl : b ∉ xs ++ a :: ys := by
        simp only [List.mem_append, List.mem_cons] at hl ⊢
        tauto
      have hd := p.alone hs hv hb hbl
      cases hes : e.snapshot with
      | none => simpa [Elem.detach, hes] using hd
      | some t =>
        obtain ⟨snp', hs', hv'⟩ := p.pinned he hes
        have hst : s ≠ t := by
          rintro rfl
          obtain rfl : snp = snp' := by rw [hs] at hs'; exact Option.some.inj hs'
          rw [hv] at hv'
          exact hba (Option.some.inj hv')
        simpa [Elem.detach, hes, update_of_ne hst] using hd
  detached {s q} hd := by
    have old : detached s = some q →
        ∃ snp b e', snapshots s = some snp ∧ snp.version.version = some b ∧ elem b = some e' ∧ b ∉ xs ++ ys := by
      intro hd
      obtain ⟨snp, b, e', hs, hv, hb, hl⟩ := p.detached hd
      refine ⟨snp, b, e', hs, hv, hb, fun hm => hl ?_⟩
      simp only [List.mem_append, List.mem_cons] at hm ⊢
      tauto
    cases hes : e.snapshot with
    | none => exact old (by simpa [Elem.detach, hes] using hd)
    | some t =>
      by_cases hst : s = t
      · subst hst
        obtain ⟨snp, hs, hv⟩ := p.pinned he hes
        exact ⟨snp, a, e, hs, hv, he, (List.nodup_middle.1 nodup).notMem⟩
      · exact old (by simpa [Elem.detach, hes, update_of_ne hst] using hd)
  fresh := p.fresh

section

variable (p : Pins elem snapshots brk next l detached)
include p

open Option (some)

/-- Another handle to a live snapshot, or one fewer. -/
theorem recount (hs : snapshots s = some snp) {n : Nat} (pos : 0 < n) :
    Pins elem (update snapshots s (some { snp with useCount := n })) brk next l detached := by
  have old : ∀ {t snp'}, update snapshots s (some { snp with useCount := n }) t = some snp' →
      0 < snp'.useCount ∧ ∃ snp'', snapshots t = some snp'' ∧ snp''.version = snp'.version := by
    intro t snp' ht
    by_cases hts : t = s
    · subst hts
      rw [update_self, some.injEq] at ht
      subst ht
      exact ⟨pos, snp, hs, rfl⟩
    · rw [update_of_ne hts] at ht
      exact ⟨(p.holds ht).1, snp', ht, rfl⟩
  have new : ∀ {t snp'}, snapshots t = some snp' →
      ∃ snp'', update snapshots s (some { snp with useCount := n }) t = some snp'' ∧
        snp''.version = snp'.version := by
    intro t snp' ht
    by_cases hts : t = s
    · subst hts
      rw [hs, some.injEq] at ht
      exact ⟨_, update_self .., by rw [← ht]⟩
    · exact ⟨snp', by rwa [update_of_ne hts], rfl⟩
  constructor
  · intro a e t ha ht
    obtain ⟨snp', hs', hv⟩ := p.pinned ha ht
    obtain ⟨snp'', hs'', hv'⟩ := new hs'
    exact ⟨snp'', hs'', by rw [hv', hv]⟩
  · intro t snp' ht
    obtain ⟨hu, snp'', hs'', hv⟩ := old ht
    obtain ⟨-, a, hlt, ha, he⟩ := p.holds hs''
    exact ⟨hu, a, hlt, by rw [← hv, ha], he⟩
  · intro t snp' a e ht hv he hl
    obtain ⟨-, snp'', hs'', hv'⟩ := old ht
    exact p.alone hs'' (by rw [hv', hv]) he hl
  · intro t q hd
    obtain ⟨snp', a, e, ht, hv, he, hl⟩ := p.detached hd
    obtain ⟨snp'', hs'', hv'⟩ := new ht
    exact ⟨snp'', a, e, hs'', by rw [hv', hv], he, hl⟩
  · intro t ht
    have hts : t ≠ s := by
      rintro rfl
      rw [p.fresh ht] at hs
      cases hs
    rw [update_of_ne hts]
    exact p.fresh ht

variable {snp : PartitionSnapshot S}

theorem pin {a : Addr} {e : Elem P} (he : elem a = some e) (unpinned : e.snapshot = none) (ha : a ∈ l) (hlt : a < brk)
    (hv : snp.version.version = some a) (pos : 0 < snp.useCount) :
    Pins (update elem a (some { e with snapshot := some next }))
      (update snapshots next (some snp)) brk (next + 1) l detached := by
  have old : ∀ {t snp'}, snapshots t = some snp' → t ≠ next := by
    rintro t snp' ht rfl
    rw [p.fresh (Nat.le_refl _)] at ht
    cases ht
  have away : ∀ {b t snp'}, snapshots t = some snp' → snp'.version.version = some b → b ≠ a := by
    rintro b t snp' ht hb rfl
    rw [p.inj he ht hb] at unpinned
    cases unpinned
  constructor
  · intro b e' t hb ht
    by_cases hba : b = a
    · subst hba
      rw [update_self, some.injEq] at hb
      subst hb
      obtain rfl : next = t := some.inj ht
      exact ⟨snp, update_self .., hv⟩
    · rw [update_of_ne hba] at hb
      obtain ⟨snp', ht', hv'⟩ := p.pinned hb ht
      exact ⟨snp', by rwa [update_of_ne (old ht')], hv'⟩
  · intro t snp' ht
    by_cases htn : t = next
    · subst htn
      rw [update_self, some.injEq] at ht
      subst ht
      refine ⟨pos, a, hlt, hv, fun e' he' => ?_⟩
      rw [update_self, some.injEq] at he'
      rw [← he']
    · rw [update_of_ne htn] at ht
      obtain ⟨hu, b, hb, hvb, heb⟩ := p.holds ht
      refine ⟨hu, b, hb, hvb, ?_⟩
      rwa [update_of_ne (away ht hvb)]
  · intro t snp' b e' ht hvb hb hl
    have hba : b ≠ a := fun h => hl (h ▸ ha)
    rw [update_of_ne hba] at hb
    by_cases htn : t = next
    · subst htn
      rw [update_self, some.injEq] at ht
      subst ht
      rw [hv] at hvb
      exact absurd (some.inj hvb).symm hba
    · rw [update_of_ne htn] at ht
      exact p.alone ht hvb hb hl
  · intro t q hd
    obtain ⟨snp', b, e', ht, hvb, hb, hl⟩ := p.detached hd
    refine ⟨snp', b, e', ?_, hvb, ?_, hl⟩
    · rwa [update_of_ne (old ht)]
    · rwa [update_of_ne (away ht hvb)]
  · intro t ht
    rw [update_of_ne (Nat.ne_of_gt ht)]
    exact p.fresh (Nat.le_of_succ_le ht)

theorem unpin {a : Addr} {e : Elem P} (he : elem a = some e) {s : SnapshotId} (hs : snapshots s = some snp)
    (hv : snp.version.version = some a) :
    Pins (update elem a (some { e with snapshot := none })) (update snapshots s none)
      brk next l (update detached s none) := by
  have hes : e.snapshot = some s := p.inj he hs hv
  have away : ∀ {b t snp'}, t ≠ s → snapshots t = some snp' → snp'.version.version = some b → b ≠ a := by
    rintro b t snp' hts ht hb rfl
    rw [p.inj he ht hb] at hes
    exact hts (some.inj hes)
  have live : ∀ {t snp'}, update snapshots s none t = some snp' → t ≠ s ∧ snapshots t = some snp' := by
    intro t snp' ht
    have hts : t ≠ s := by
      rintro rfl
      rw [update_self] at ht
      cases ht
    rw [update_of_ne hts] at ht
    exact ⟨hts, ht⟩
  constructor
  · intro b e' t hb ht
    have hba : b ≠ a := by
      rintro rfl
      rw [update_self, some.injEq] at hb
      rw [← hb] at ht
      cases ht
    rw [update_of_ne hba] at hb
    obtain ⟨snp', ht', hv'⟩ := p.pinned hb ht
    have hts : t ≠ s := by
      rintro rfl
      rw [hs, some.injEq] at ht'
      rw [← ht', hv] at hv'
      exact hba (some.inj hv').symm
    exact ⟨snp', by rwa [update_of_ne hts], hv'⟩
  · intro t snp' ht
    obtain ⟨hts, ht⟩ := live ht
    obtain ⟨hu, b, hb, hvb, heb⟩ := p.holds ht
    refine ⟨hu, b, hb, hvb, ?_⟩
    rwa [update_of_ne (away hts ht hvb)]
  · intro t snp' b e' ht hvb hb hl
    obtain ⟨hts, ht⟩ := live ht
    rw [update_of_ne (away hts ht hvb)] at hb
    rw [update_of_ne hts]
    exact p.alone ht hvb hb hl
  · intro t q hd
    have hts : t ≠ s := by
      rintro rfl
      rw [update_self] at hd
      cases hd
    rw [update_of_ne hts] at hd
    obtain ⟨snp', b, e', ht, hvb, hb, hl⟩ := p.detached hd
    refine ⟨snp', b, e', ?_, hvb, ?_, hl⟩
    · rwa [update_of_ne hts]
    · rwa [update_of_ne (away hts ht hvb)]
  · intro t ht
    by_cases hts : t = s
    · rw [hts, update_self]
    · rw [update_of_ne hts]
      exact p.fresh ht

theorem modify (he : elem a = some e) (ha : a ∈ l) (mp : P) :
    Pins (update elem a (some { e with partition := mp })) snapshots brk next l detached := by
  have same : ∀ {b e'}, update elem a (some { e with partition := mp }) b = some e' →
      ∃ e₀, elem b = some e₀ ∧ e₀.snapshot = e'.snapshot := by
    intro b e' hb
    by_cases hba : b = a
    · subst hba
      rw [update_self, some.injEq] at hb
      exact ⟨e, he, by rw [← hb]⟩
    · exact ⟨e', (update_of_ne hba ..).symm.trans hb, rfl⟩
  refine p.transport (Nat.le_refl _) (fun hb => .inr (same hb)) fun {s snp b} hs hv _ => ⟨fun e' hb => ?_, fun e' => ?_⟩
  · obtain ⟨e₀, hb₀, eq⟩ := same hb
    exact eq ▸ p.inj hb₀ hs hv
  · refine and_congr_left fun hl => ?_
    have hba : b ≠ a := fun h => hl (h ▸ ha)
    rw [update_of_ne hba]

theorem replace {elem' : Addr → Option (Elem P)}
    (unpinned : e.snapshot = none) (new : elem' brk = some e) (freed : ∀ a ∈ l, elem' a = none)
    (kept : ∀ a, a ≠ brk → a ∉ l → elem' a = elem a) :
    Pins elem' snapshots (brk + 1) next [brk] detached := by
  have old : ∀ {a e'}, a ≠ brk → (elem' a = some e' ↔ elem a = some e' ∧ a ∉ l) := by
    intro a e' hab
    by_cases hl : a ∈ l
    · simp [freed a hl, hl]
    · simp [kept a hab hl, hl]
  refine p.transport (Nat.le_succ _) (fun {a e'} ha => ?_) fun {s snp a} hs hv hlt => ?_
  · by_cases hab : a = brk
    · cases (hab ▸ ha).symm.trans new
      exact .inl unpinned
    · exact .inr ⟨e', ((old hab).1 ha).1, rfl⟩
  · have hab := Nat.ne_of_lt hlt
    exact ⟨fun e' ha => p.inj ((old hab).1 ha).1 hs hv, fun e' => by simp [old hab, hab]⟩

theorem relocate {e' : Elem P} (he : elem a = some e) (unpinned : e.snapshot = none) (unpinned' : e'.snapshot = none) :
    Pins (update (update elem brk (some e')) a none) snapshots (brk + 1) next (l.map (update id a brk)) detached := by
  have old : ∀ {b}, b ≠ a → b ≠ brk → update (update elem brk (some e')) a none b = elem b := by
    intro b hba hbb
    rw [update_of_ne hba, update_of_ne hbb]
  refine p.transport (Nat.le_succ _) (fun {b e''} hb => ?_) fun {s snp b} hs hv hlt => ?_
  · have hba : b ≠ a := by
      rintro rfl
      rw [update_self] at hb
      cases hb
    by_cases hbb : b = brk
    · rw [hbb, update_of_ne (hbb ▸ hba), update_self, some.injEq] at hb
      exact .inl (hb ▸ unpinned')
    · exact .inr ⟨e'', old hba hbb ▸ hb, rfl⟩
  · have hba : b ≠ a := by
      rintro rfl
      cases unpinned.symm.trans (p.inj he hs hv)
    have hbb := Nat.ne_of_lt hlt
    have listed : b ∈ l.map (update id a brk) ↔ b ∈ l := by
      rw [List.mem_map]
      constructor
      · rintro ⟨x, hx, hxb⟩
        by_cases hxa : x = a
        · rw [hxa, update_self] at hxb
          exact absurd hxb.symm hbb
        · rw [update_of_ne hxa] at hxb
          exact hxb ▸ hx
      · intro hb
        exact ⟨b, hb, update_of_ne hba ..⟩
    rw [old hba hbb, listed]
    exact ⟨fun e'' hb => p.inj hb hs hv, fun _ => .rfl⟩

end

end Pins

end ScyllaMoon.Mvcc
