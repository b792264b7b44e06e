import ScyllaMoon.Mutation.CellBytes

/-!
# Collections and the order of merges

Collections are merged key by key. The cells that stay in the end are those that the tombstone of no other
collection covers, and under each key a greatest one of them, so the order can only show where two such
cells differ in the TTL. The key itself is kept from the collection that was merged first: the bytes of
keys show the order where the type of the keys has values with several encodings.
-/

namespace ScyllaMoon.Mutation

open Lib AtomicCell CollectionMutation List Option

variable {Key : Type} [LinearOrder Key]

namespace CollectionMutation

variable {a b m n : CollectionMutation Key} {as bs l l' rest : List (CollectionMutation Key)} {k : Key} {x y : AtomicCell}

/-- The tombstone is the greatest one. -/
theorem tomb_foldl_le {t : Tombstone} : (as.foldl merge a).tomb ≤ t ↔ ∀ m ∈ a :: as, m.tomb ≤ t := by
  induction as generalizing a with
  | nil => simp
  | cons b as ih =>
    rw [foldl_cons, ih]
    simp [merge, and_assoc]

theorem tomb_foldl_perm (h : (a :: as).Perm (b :: bs)) : (as.foldl merge a).tomb = (bs.foldl merge b).tomb :=
  eq_of_forall_ge_iff fun t => by
    rw [tomb_foldl_le, tomb_foldl_le]
    exact ⟨fun le m hm => le m (h.mem_iff.2 hm), fun le m hm => le m (h.mem_iff.1 hm)⟩

theorem timestamp_foldl_lt {t : Int} (h : ∀ m ∈ a :: as, m.tomb.timestamp < t) :
    (as.foldl merge a).tomb.timestamp < t := by
  induction as generalizing a with
  | nil => exact h a mem_cons_self
  | cons b as ih =>
    obtain ⟨ha, hb, has⟩ : a.tomb.timestamp < t ∧ b.tomb.timestamp < t ∧ ∀ m ∈ as, m.tomb.timestamp < t := by simpa using h
    refine ih (forall_mem_cons.2 ⟨?_, has⟩)
    change (max a.tomb b.tomb).timestamp < t
    rcases le_total a.tomb b.tomb with le | le
    · rwa [max_eq_right le]
    · rwa [max_eq_left le]

theorem fits_foldl (h : ∀ m ∈ a :: as, m.Fits) : (as.foldl merge a).Fits := by
  induction as generalizing a with
  | nil => exact h a mem_cons_self
  | cons b as ih =>
    obtain ⟨ha, hb, has⟩ : a.Fits ∧ b.Fits ∧ ∀ m ∈ as, m.Fits := by simpa using h
    exact ih (forall_mem_cons.2 ⟨isJoin.closed a b ha hb, has⟩)

/-- A cell that the tombstones of the other collections do not cover. -/
def Survives (l : List (CollectionMutation Key)) (k : Key) (x : AtomicCell) : Prop :=
  ∃ m rest, (m :: rest).Perm l ∧ m.find k = some x ∧ ∀ n ∈ rest, n.tomb.timestamp < x.timestamp

theorem Survives.perm (h : Survives l k x) (perm : l.Perm l') : Survives l' k x := by
  obtain ⟨n, rest, split, found, others⟩ := h
  exact ⟨n, rest, split.trans perm, found, others⟩

theorem Survives.fits (h : Survives l k x) (fits : ∀ m ∈ l, m.Fits) : x.Fits := by
  obtain ⟨m, _, perm, found, -⟩ := h
  exact fits m (perm.mem_iff.1 mem_cons_self) k x found

/-- Whatever is in the end under a key survives. -/
theorem survives_of_find (h : (as.foldl merge a).find k = some x) : Survives (a :: as) k x := by
  induction as using reverseRecOn generalizing x with
  | nil => exact ⟨a, [], .refl _, h, fun _ hn => absurd hn not_mem_nil⟩
  | append_singleton as b ih =>
    rw [foldl_append, foldl_cons, foldl_nil] at h
    rcases find_merge_cases h with ⟨found, spared⟩ | ⟨found, spared⟩
    · obtain ⟨m, rest, perm, found, others⟩ := ih found
      refine ⟨m, rest ++ [b], ?_, found, forall_mem_append.2 ⟨others, forall_mem_singleton.2 spared⟩⟩
      exact perm.append_right [b]
    · refine ⟨b, a :: as, (perm_append_singleton b (a :: as)).symm, found, fun n hn => ?_⟩
      have le : n.tomb ≤ (as.foldl merge a).tomb := tomb_foldl_le.1 le_rfl n hn
      exact (Tombstone.timestamp_le le).trans_lt spared

/-- Nothing that survives is greater than what is there in the end. -/
theorem find_of_survives (fits : ∀ m ∈ a :: as, m.Fits) (h : Survives (a :: as) k x) :
    ∃ y, (as.foldl merge a).find k = some y ∧ RankLe rank x y := by
  induction as using reverseRecOn generalizing x with
  | nil =>
    obtain ⟨m, rest, perm, found, -⟩ := h
    obtain ⟨rfl, -⟩ := cons.inj (perm_singleton.1 perm)
    exact ⟨x, found, RankLe.refl x⟩
  | append_singleton as b ih =>
    obtain ⟨fitsA, fitsB⟩ := forall_mem_append.1 (cons_append ▸ fits)
    rw [foldl_append, foldl_cons, foldl_nil]
    have fitsFold := fits_foldl fitsA
    have fitsLast : b.Fits := fitsB b (mem_singleton.2 rfl)
    obtain ⟨m, rest, perm, found, others⟩ := h
    have last : (a :: (as ++ [b])).Perm (b :: a :: as) := perm_append_singleton b (a :: as)
    by_cases own : m = b
    · -- the cell of the last collection
      subst own
      have rest_perm : rest.Perm (a :: as) := (perm.trans last).cons_inv
      have alive := timestamp_foldl_lt fun n hn => others n (rest_perm.mem_iff.2 hn)
      exact (find_merge_right fitsFold fitsLast found).resolve_left (not_le.2 alive)
    · -- an earlier one, which the last tombstone does not cover either
      have mem : b ∈ rest := (mem_cons.1 ((perm.trans last).mem_iff.2 mem_cons_self)).resolve_left (Ne.symm own)
      obtain ⟨s, t, rfl⟩ := append_of_mem mem
      have earlier : (m :: (s ++ t)).Perm (a :: as) :=
        (perm_middle.symm.trans (perm.trans last) : (b :: ((m :: s) ++ t)).Perm (b :: a :: as)).cons_inv
      obtain ⟨y, hy, le⟩ := ih fitsA ⟨m, s ++ t, earlier, found, fun n hn => others n (by
        rcases mem_append.1 hn with hn | hn <;> simp [hn])⟩
      have alive : b.tomb.timestamp < y.timestamp := (others b mem).trans_le (timestamp_le le)
      obtain ⟨z, hz, le'⟩ := (find_merge_left fitsFold fitsLast hy).resolve_left (not_le.2 alive)
      exact ⟨z, hz, Std.TransCmp.isLE_trans le le'⟩

/-- Where two cells of one key differ in the TTL only, a tombstone covers them or another one is greater. -/
def Decided (l : List (CollectionMutation Key)) : Prop :=
  ∀ a ∈ l, ∀ b ∈ l, ∀ k x y, a.find k = some x → b.find k = some y → x.DifferInTtl y →
    (∃ m ∈ l, x.timestamp ≤ m.tomb.timestamp) ∨ ∃ m ∈ l, ∃ z, m.find k = some z ∧ x.Below z

/-- A tombstone that covers a surviving cell is that of its own collection. -/
theorem eq_of_covers (perm : (m :: rest).Perm l) (others : ∀ n ∈ rest, n.tomb.timestamp < x.timestamp) (hn : n ∈ l)
    (covers : x.timestamp ≤ n.tomb.timestamp) : n = m :=
  (mem_cons.1 (perm.mem_iff.2 hn)).resolve_right fun rest => absurd covers (not_le.2 (others n rest))

/-- No two of the greatest cells that survive differ in the TTL. -/
theorem Decided.not_differInTtl (decided : Decided l) (hx : Survives l k x) (hy : Survives l k y)
    (top : ∀ z, Survives l k z → RankLe rank z x) : ¬ x.DifferInTtl y := by
  intro differ
  obtain ⟨m, rest, perm, found, others⟩ := hx
  obtain ⟨n, rest', perm', found', others'⟩ := hy
  have uncovered : ∀ w ∈ l, ¬ x.timestamp ≤ w.tomb.timestamp := by
    intro w hw covers
    have own : m = n := (eq_of_covers perm others hw covers).symm.trans
      (eq_of_covers perm' others' hw (differ.timestamp_eq ▸ covers))
    rw [own, found'] at found
    exact differ.ne (some.inj found).symm
  rcases decided m (perm.mem_iff.1 mem_cons_self) n (perm'.mem_iff.1 mem_cons_self) k x y found found' differ with
    ⟨w, hw, covers⟩ | ⟨w, hw, z, hz, below⟩
  · exact uncovered w hw covers
  · obtain ⟨s, t, rfl⟩ := append_of_mem hw
    have le : RankLe rank x z := by
      unfold RankLe
      rw [below]
      rfl
    refine not_below_iff.2 (top z ⟨w, s ++ t, perm_middle.symm, hz, fun v hv => ?_⟩) below
    have mem : v ∈ s ++ w :: t := perm_middle.mem_iff.2 (mem_cons_of_mem _ hv)
    exact (not_le.1 (uncovered v mem)).trans_le (timestamp_le le)

/-- What all orders give, if every tie is decided. -/
theorem Decided.foldl_eq (decided : Decided l) (fits : ∀ m ∈ l, m.Fits) (ha : (a :: as).Perm l) (hb : (b :: bs).Perm l) :
    as.foldl merge a = bs.foldl merge b := by
  have greatest : ∀ {a : CollectionMutation Key} {as}, (a :: as).Perm l → ∀ k x, Survives l k x →
      ∃ y, (as.foldl merge a).find k = some y ∧ RankLe rank x y := fun h k x hx =>
    find_of_survives (fun m hm => fits m (h.mem_iff.1 hm)) (hx.perm h.symm)
  refine ext_find (tomb_foldl_perm (ha.trans hb.symm)) fun k => ?_
  cases hx : (as.foldl merge a).find k with
  | none => cases hy : (bs.foldl merge b).find k with
    | none => rfl
    | some y =>
      obtain ⟨x, found, -⟩ := greatest ha k y ((survives_of_find hy).perm hb)
      rw [hx] at found
      cases found
  | some x =>
    have survives := (survives_of_find hx).perm ha
    obtain ⟨y, hy, xy⟩ := greatest hb k x survives
    have survives' := (survives_of_find hy).perm hb
    have top : ∀ z, Survives l k z → RankLe rank z x := by
      intro z hz
      obtain ⟨w, hw, le⟩ := greatest ha k z hz
      rw [hx] at hw
      exact some.inj hw ▸ le
    have eq := (compareForMerge_eq (survives.fits fits) (survives'.fits fits)).trans (xy.compare_eq (top y survives'))
    rcases compareForMerge_eq_iff.1 eq with same | differ
    · rw [hy, same]
    · exact absurd differ (decided.not_differInTtl survives survives' top)

/-- A cell that nothing covers and none is greater than is there in the end if it comes last. -/
theorem exists_find_eq (fits : ∀ m ∈ l, m.Fits) (ha : a ∈ l) (found : a.find k = some x)
    (uncovered : ∀ m ∈ l, m.tomb.timestamp < x.timestamp) (top : ∀ m ∈ l, ∀ z, m.find k = some z → ¬ x.Below z) :
    ∃ b bs, (b :: bs).Perm l ∧ (bs.foldl merge b).find k = some x := by
  obtain ⟨s, t, rfl⟩ := append_of_mem ha
  have middle : (s ++ a :: t).Perm (a :: (s ++ t)) := perm_middle
  cases rest : s ++ t with
  | nil => exact ⟨a, [], (rest ▸ middle).symm, found⟩
  | cons b bs =>
    rw [rest] at middle
    have mem : ∀ m ∈ b :: bs, m ∈ s ++ a :: t := fun m hm => middle.mem_iff.2 (mem_cons_of_mem _ hm)
    refine ⟨b, bs ++ [a], (perm_append_singleton a (b :: bs)).trans middle.symm, ?_⟩
    have alive := timestamp_foldl_lt fun m hm => uncovered m (mem m hm)
    rw [foldl_append, foldl_cons, foldl_nil, find_merge, found, spared_of_lt alive]
    cases before : spared a.tomb ((bs.foldl merge b).find k) with
    | none => rfl
    | some w =>
      have survives := survives_of_find (spared_eq_some.1 before).1
      have fitsW := survives.fits fun m hm => fits m (mem m hm)
      obtain ⟨m, _, perm, hm, -⟩ := survives
      have le := not_below_iff.1 (top m (mem m (perm.mem_iff.1 mem_cons_self)) w hm)
      have kept : w.pick x = x := if_neg fun gt => by
        rw [compareForMerge_eq fitsW (fits a ha k x found)] at gt
        unfold RankLe at le
        rw [gt] at le
        cases le
      exact congrArg some kept

/-- The order of merges does not show exactly if every tie is decided. -/
theorem foldl_merge_eq_iff (fits : ∀ m ∈ l, m.Fits) :
    (∀ a as b bs, (a :: as).Perm l → (b :: bs).Perm l → as.foldl merge a = bs.foldl merge b) ↔ Decided l := by
  refine ⟨fun agree a ha b hb k x y hx hy differ => ?_, fun decided a as b bs ha hb => decided.foldl_eq fits ha hb⟩
  by_contra undecided
  obtain ⟨uncovered, top⟩ := not_or.1 undecided
  have uncovered : ∀ m ∈ l, m.tomb.timestamp < x.timestamp := fun m hm => not_le.1 fun le => uncovered ⟨m, hm, le⟩
  have top : ∀ m ∈ l, ∀ z, m.find k = some z → ¬ x.Below z := fun m hm z hz below => top ⟨m, hm, z, hz, below⟩
  obtain ⟨c, cs, hcs, foundX⟩ := exists_find_eq fits ha hx uncovered top
  obtain ⟨d, ds, hds, foundY⟩ := exists_find_eq fits hb hy (differ.timestamp_eq ▸ uncovered)
    (fun m hm z hz below => top m hm z hz (by unfold AtomicCell.Below; rw [differ.rank_eq]; exact below))
  rw [agree c cs d ds hcs hds, foundY] at foundX
  exact differ.ne (some.inj foundX).symm

end CollectionMutation

/-- `collection_type_impl::mutation_view`: what is deserialized of a collection. Keys are byte strings in the order of the
values that the type of the keys gives them. -/
structure CollectionView (value : List UInt8 → Key) where
  tomb : Tombstone
  cells : List (List UInt8 × AtomicCell)
  written : tomb.Written
  sorted : Sorted (fun e => value e.1) cells

namespace CollectionView

open CollectionMutation (killed spared)

variable {value : List UInt8 → Key}

/-- `collection_type_impl::merge`; of two keys with one value, that of `a` is kept -/
def merge (a b : CollectionView value) : CollectionView value where
  tomb := max a.tomb b.tomb
  cells := combine (fun e => value e.1) (fun e₁ e₂ => (e₁.1, e₁.2.pick e₂.2))
    (a.cells.filter fun e => !killed b.tomb e.2) (b.cells.filter fun e => !killed a.tomb e.2)
  written := a.written.max b.written
  sorted := Sorted.combine (a.sorted.sublist filter_sublist) (b.sorted.sublist filter_sublist) fun _ _ _ => rfl

variable (a : CollectionView value)

/-- `do_serialize_mutation_form` -/
def serialize : List UInt8 :=
  (if a.tomb.timestamp ≠ missingTimestamp then 1 :: (bigEndian 8 a.tomb.timestamp ++ bigEndian 4 a.tomb.deletionTime)
    else [0]) ++ (bigEndian 4 a.cells.length ++ a.cells.flatMap fun e => sized e.1 ++ sized e.2.serialize)

/-- The numbers are those of the source's types, and so are the sizes of `bytes`. -/
structure InRange : Prop where
  timestamp : IsInt64 a.tomb.timestamp
  deletionTime : IsInt32 a.tomb.deletionTime
  cells : ∀ e ∈ a.cells, e.1.length < 4294967296 ∧ e.2.InRange ∧ e.2.serialize.length < 4294967296

/-- The collection by the values of its keys. -/
def toMutation : CollectionMutation Key where
  tomb := a.tomb
  cells := a.cells.map fun e : List UInt8 × AtomicCell => (value e.1, e.2)
  written := a.written
  sorted := List.Pairwise.map _ (fun _ _ lt => lt) a.sorted

/-- The key and the cell of a value. -/
def entry (k : Key) : Option (List UInt8 × AtomicCell) :=
  a.cells.find? fun e => decide (value e.1 = k)

/-- The same key everywhere for the same value. -/
def KeysAgree (l : List (CollectionView value)) : Prop :=
  ∀ a ∈ l, ∀ b ∈ l, ∀ e ∈ a.cells, ∀ f ∈ b.cells, value e.1 = value f.1 → e.1 = f.1

/-- The same key for the same value, where the tombstones of the other collections leave the cells. -/
def LiveKeysAgree (l : List (CollectionView value)) : Prop :=
  ∀ a as b bs, (a :: as).Perm l → (b :: bs).Perm l → ∀ e ∈ a.cells, ∀ f ∈ b.cells,
    (∀ m ∈ as, m.tomb.timestamp < e.2.timestamp) → (∀ m ∈ bs, m.tomb.timestamp < f.2.timestamp) →
    value e.1 = value f.1 → e.1 = f.1

variable {a b : CollectionView value} {as bs l : List (CollectionView value)} {k : Key} {e : List UInt8 × AtomicCell}

theorem entry_eq_some : a.entry k = some e ↔ e ∈ a.cells ∧ value e.1 = k := by
  constructor
  · intro h
    exact ⟨mem_of_find?_eq_some h, by simpa using find?_some h⟩
  · rintro ⟨mem, rfl⟩
    exact a.sorted.mem_iff_find?.1 mem

theorem find_toMutation (a : CollectionView value) (k : Key) : a.toMutation.find k = (a.entry k).map Prod.snd := by
  unfold find toMutation entry
  rw [find?_map, Option.map_map]
  rfl

theorem entry_merge (a b : CollectionView value) (k : Key) : (a.merge b).entry k =
    Option.merge (fun e₁ e₂ => (e₁.1, e₁.2.pick e₂.2)) ((a.entry k).filter fun e => !killed b.tomb e.2)
      ((b.entry k).filter fun e => !killed a.tomb e.2) := by
  have keeps : ∀ e₁ e₂ : List UInt8 × AtomicCell, value e₁.1 = value e₂.1 →
      value (e₁.1, e₁.2.pick e₂.2).1 = value e₁.1 := fun _ _ _ => rfl
  unfold entry
  rw [← a.sorted.find?_filter, ← b.sorted.find?_filter]
  exact find?_combine (a.sorted.sublist filter_sublist) (b.sorted.sublist filter_sublist) keeps k

/-- By the values of the keys this is the merge of collections. -/
theorem toMutation_merge (a b : CollectionView value) : (a.merge b).toMutation = a.toMutation.merge b.toMutation :=
  ext_find rfl fun k => by
    have cells : ∀ o p : Option (List UInt8 × AtomicCell), (Option.merge (fun e₁ e₂ => (e₁.1, e₁.2.pick e₂.2)) o p).map
        Prod.snd = Option.merge pick (o.map Prod.snd) (p.map Prod.snd) := fun _ _ => map_merge fun _ _ _ _ => rfl
    rw [find_toMutation, entry_merge, find_merge, find_toMutation, find_toMutation, cells,
      map_filter_killed, map_filter_killed]
    rfl

theorem toMutation_foldl (a : CollectionView value) (as : List (CollectionView value)) :
    (as.foldl merge a).toMutation = (as.map toMutation).foldl CollectionMutation.merge a.toMutation := by
  induction as generalizing a with
  | nil => rfl
  | cons b as ih => rw [foldl_cons, ih, toMutation_merge, map_cons, foldl_cons]

theorem tomb_eq_empty (missing : a.tomb.timestamp = missingTimestamp) : a.tomb = {} :=
  a.written.resolve_right fun lt => lt.ne' missing

theorem serialize_inj (ha : a.InRange) (hb : b.InRange) (h : a.serialize = b.serialize) : a = b := by
  have tomb : a.tomb = b.tomb ∧ a.cells.flatMap (fun e => sized e.1 ++ sized e.2.serialize) =
      b.cells.flatMap (fun e => sized e.1 ++ sized e.2.serialize) := by
    unfold serialize at h
    split at h <;> split at h
    · obtain ⟨first, rest⟩ := append_inj h (by simp)
      obtain ⟨ts, deletion⟩ := append_inj (cons.inj first).2 (by simp)
      have ts := bigEndian_eight_inj ha.timestamp hb.timestamp ts
      have deletion := bigEndian_four_inj ha.deletionTime hb.deletionTime deletion
      refine ⟨?_, (append_inj rest (by simp)).2⟩
      cases ta : a.tomb
      simp_all
    · exact absurd (cons.inj h).1 (by decide)
    · exact absurd (cons.inj h).1 (by decide)
    next ea eb =>
      rw [tomb_eq_empty (not_not.1 ea), tomb_eq_empty (not_not.1 eb)]
      exact ⟨rfl, (append_inj (append_inj h (by simp)).2 (by simp)).2⟩
  have cells : a.cells = b.cells := flatMap_inj
    (fun e empty => by simpa [sized, bigEndian] using congrArg length empty)
    (fun e f r s okE okF eq => by
      rw [append_assoc, append_assoc] at eq
      obtain ⟨key, rest⟩ := sized_append_inj okE.1 okF.1 eq
      obtain ⟨bytes, rest⟩ := sized_append_inj okE.2.2 okF.2.2 rest
      exact ⟨Prod.ext key (AtomicCell.serialize_inj okE.2.1 okF.2.1 bytes), rest⟩)
    ha.cells hb.cells tomb.2
  cases b
  cases tomb.1
  cases cells
  rfl

theorem InRange.merge (ha : a.InRange) (hb : b.InRange) : (a.merge b).InRange := by
  have tomb : ∀ {P : Tombstone → Prop}, P a.tomb → P b.tomb → P (max a.tomb b.tomb) := fun {P} pa pb => by
    rcases le_total a.tomb b.tomb with le | le
    · rwa [max_eq_right le]
    · rwa [max_eq_left le]
  refine ⟨tomb (P := fun t => IsInt64 t.timestamp) ha.timestamp hb.timestamp,
    tomb (P := fun t => IsInt32 t.deletionTime) ha.deletionTime hb.deletionTime, ?_⟩
  refine forall_mem_combine (fun e he => ha.cells e (mem_of_mem_filter he))
    (fun e he => hb.cells e (mem_of_mem_filter he)) fun e he f hf _ => ?_
  refine ⟨(ha.cells e (mem_of_mem_filter he)).1, ?_⟩
  unfold pick
  split
  · exact (ha.cells e (mem_of_mem_filter he)).2
  · exact (hb.cells f (mem_of_mem_filter hf)).2

theorem InRange.foldl (h : ∀ m ∈ a :: as, m.InRange) : (as.foldl CollectionView.merge a).InRange := by
  induction as generalizing a with
  | nil => exact h a mem_cons_self
  | cons b as ih =>
    obtain ⟨ha, hb, has⟩ : a.InRange ∧ b.InRange ∧ ∀ m ∈ as, m.InRange := by simpa using h
    exact ih (forall_mem_cons.2 ⟨ha.merge hb, has⟩)

theorem InRange.fits (h : a.InRange) : a.toMutation.Fits := by
  intro k x found
  rw [find_toMutation] at found
  obtain ⟨e, he, rfl⟩ := map_eq_some_iff.1 found
  exact (h.cells e (entry_eq_some.1 he).1).2.1.fits

/-- Every key comes from one of the collections. -/
theorem mem_foldl {P : List UInt8 → Prop} (h : ∀ m ∈ a :: as, ∀ e ∈ m.cells, P e.1) :
    ∀ e ∈ (as.foldl merge a).cells, P e.1 := by
  induction as generalizing a with
  | nil => exact h a mem_cons_self
  | cons b as ih =>
    obtain ⟨ha, hb, has⟩ : (∀ e ∈ a.cells, P e.1) ∧ (∀ e ∈ b.cells, P e.1) ∧ ∀ m ∈ as, ∀ e ∈ m.cells, P e.1 := by
      simpa using h
    refine ih (forall_mem_cons.2 ⟨?_, has⟩)
    exact forall_mem_combine (fun e he => ha e (mem_of_mem_filter he)) (fun e he => hb e (mem_of_mem_filter he))
      fun e he _ _ _ => ha e (mem_of_mem_filter he)

/-- The key of a cell that no other tombstone covers is kept if it comes first. -/
theorem entry_foldl {key : List UInt8} {x : AtomicCell} (range : ∀ m ∈ a :: as, m.InRange)
    (found : a.entry k = some (key, x)) (others : ∀ m ∈ as, m.tomb.timestamp < x.timestamp) :
    ∃ y, (as.foldl merge a).entry k = some (key, y) := by
  induction as generalizing a x with
  | nil => exact ⟨x, found⟩
  | cons b as ih =>
    obtain ⟨ha, hb, has⟩ : a.InRange ∧ b.InRange ∧ ∀ m ∈ as, m.InRange := by simpa using range
    obtain ⟨alive, others⟩ := forall_mem_cons.1 others
    have kept : (some (key, x)).filter (fun e => !killed b.tomb e.2) = some (key, x) := by
      simp [Option.filter, killed, alive]
    have merged := entry_merge a b k
    rw [found, kept] at merged
    have range' : ∀ m ∈ a.merge b :: as, m.InRange := forall_mem_cons.2 ⟨ha.merge hb, has⟩
    cases other : (b.entry k).filter (fun e => !killed a.tomb e.2) with
    | none =>
      rw [other] at merged
      exact ih range' merged others
    | some f =>
      rw [other] at merged
      have memE := (entry_eq_some.1 found).1
      have memF := (entry_eq_some.1 (filter_eq_some_iff.1 other).1).1
      have le := isJoin_pick.left x f.2 (ha.cells _ memE).2.1.fits (hb.cells _ memF).2.1.fits
      exact ih range' merged fun m hm => (others m hm).trans_le (timestamp_le le)

/-- An order of the collections by the values of their keys is one of the collections. -/
theorem exists_perm_of_map {c : CollectionMutation Key} {cs : List (CollectionMutation Key)}
    (h : (c :: cs).Perm (l.map toMutation)) : ∃ a as, (a :: as).Perm l ∧ a.toMutation = c ∧ as.map toMutation = cs := by
  have pointwise : List.Forall₂ (fun c m => c = toMutation m) (l.map toMutation) l :=
    forall₂_map_left_iff.2 (forall₂_same.2 fun _ _ => rfl)
  obtain ⟨m, same, perm⟩ := perm_comp_forall₂ h pointwise
  cases same with
  | cons first rest =>
    exact ⟨_, _, perm, first.symm, (forall₂_eq_eq_eq ▸ forall₂_map_right_iff.2 rest).symm⟩

/-- With one key for each value, collections that are equal by the values are equal. -/
theorem KeysAgree.mem_of_eq (keys : KeysAgree l) (ha : (a :: as).Perm l) (hb : (b :: bs).Perm l)
    (same : (as.foldl merge a).toMutation = (bs.foldl merge b).toMutation)
    (he : e ∈ (as.foldl merge a).cells) : e ∈ (bs.foldl merge b).cells := by
  have origin : ∀ {a : CollectionView value} {as}, (a :: as).Perm l → ∀ e ∈ (as.foldl merge a).cells,
      ∃ m ∈ l, ∃ f ∈ m.cells, f.1 = e.1 := fun h => mem_foldl (P := fun key => ∃ m ∈ l, ∃ f ∈ m.cells, f.1 = key)
    fun m hm f hf => ⟨m, h.mem_iff.1 hm, f, hf, rfl⟩
  have pair : (value e.1, e.2) ∈ (as.foldl merge a).toMutation.cells := mem_map_of_mem he
  rw [same] at pair
  obtain ⟨f, hf, eq⟩ := mem_map.1 pair
  obtain ⟨values, cells⟩ := Prod.ext_iff.1 eq
  obtain ⟨m, hm, e', he', keyE⟩ := origin ha e he
  obtain ⟨n, hn, f', hf', keyF⟩ := origin hb f hf
  have key : e.1 = f.1 := by
    rw [← keyE, ← keyF]
    exact keys m hm n hn e' he' f' hf' (by rw [keyE, keyF]; exact values.symm)
  exact Prod.ext key cells.symm ▸ hf

/-- If the values have one key each and every tie is decided, the order of merges does not show. -/
theorem ordersAgree (range : ∀ m ∈ l, m.InRange) (decided : CollectionMutation.Decided (l.map toMutation))
    (keys : KeysAgree l) : OrdersAgree merge serialize l := by
  intro a as b bs ha hb
  have fits : ∀ m ∈ l.map toMutation, m.Fits := forall_mem_map.2 fun m hm => (range m hm).fits
  have same : (as.foldl merge a).toMutation = (bs.foldl merge b).toMutation := by
    rw [toMutation_foldl, toMutation_foldl]
    exact decided.foldl_eq fits (ha.map toMutation) (hb.map toMutation)
  have cells : (as.foldl merge a).cells = (bs.foldl merge b).cells :=
    Sorted.eq_of_mem (as.foldl merge a).sorted (bs.foldl merge b).sorted fun e =>
      ⟨keys.mem_of_eq ha hb same, keys.mem_of_eq hb ha same.symm⟩
  have tomb : (as.foldl merge a).tomb = (bs.foldl merge b).tomb := congrArg CollectionMutation.tomb same
  unfold serialize
  rw [cells, tomb]

/-- If the order does not show, every tie is decided, and so is every key. -/
theorem decided_of_ordersAgree (range : ∀ m ∈ l, m.InRange) (agree : OrdersAgree merge serialize l) :
    CollectionMutation.Decided (l.map toMutation) ∧ LiveKeysAgree l := by
  have fits : ∀ m ∈ l.map toMutation, m.Fits := forall_mem_map.2 fun m hm => (range m hm).fits
  have equal : ∀ a as b bs, (a :: as).Perm l → (b :: bs).Perm l → as.foldl merge a = bs.foldl merge b :=
    fun a as b bs ha hb => serialize_inj (InRange.foldl fun m hm => range m (ha.mem_iff.1 hm))
      (InRange.foldl fun m hm => range m (hb.mem_iff.1 hm)) (agree a as b bs ha hb)
  constructor
  · refine (foldl_merge_eq_iff fits).1 fun a as b bs ha hb => ?_
    obtain ⟨a, as, orderA, rfl, rfl⟩ := exists_perm_of_map ha
    obtain ⟨b, bs, orderB, rfl, rfl⟩ := exists_perm_of_map hb
    rw [← toMutation_foldl, ← toMutation_foldl, equal a as b bs orderA orderB]
  · intro a as b bs ha hb e he f hf aliveE aliveF same
    obtain ⟨x, hx⟩ := entry_foldl (fun m hm => range m (ha.mem_iff.1 hm)) (entry_eq_some.2 ⟨he, rfl⟩) aliveE
    obtain ⟨y, hy⟩ := entry_foldl (fun m hm => range m (hb.mem_iff.1 hm)) (entry_eq_some.2 ⟨hf, rfl⟩) aliveF
    rw [equal a as b bs ha hb, same, hy] at hx
    exact (congrArg Prod.fst (some.inj hx)).symm

/-- A collection with one cell. -/
def single (key : List UInt8) (cell : AtomicCell) : CollectionView value :=
  ⟨{}, [(key, cell)], .inl rfl, pairwise_singleton ..⟩

end CollectionView

/-- Reconciliation decides on the content exactly but for the TTL: cells that compare equal have the same bytes unless they
differ in it, the comparison is a total preorder, and the order in which cells are merged does not show exactly if some
greater cell decides wherever the TTL differs. In collections a tombstone may decide too, and no more than one key may be
written for one value. -/
theorem reconciliation_decides_on_content (value : List UInt8 → Key) : (∀ l r : AtomicCell, l.InRange → r.InRange →
      ((l.compareForMerge r = .eq → l.serialize = r.serialize) ↔ ¬ l.DifferInTtl r) ∧
        r.compareForMerge l = (l.compareForMerge r).swap) ∧
      (∀ l m r : AtomicCell, l.InRange → m.InRange → r.InRange →
        (l.compareForMerge m).isLE → (m.compareForMerge r).isLE → (l.compareForMerge r).isLE) ∧
      (∀ cells : List AtomicCell, (∀ c ∈ cells, c.InRange) →
        (OrdersAgree merge serialize cells ↔ AtomicCell.Decided cells)) ∧
      ∀ l : List (CollectionView value), (∀ m ∈ l, m.InRange) →
        (CollectionMutation.Decided (l.map CollectionView.toMutation) → CollectionView.KeysAgree l →
          OrdersAgree CollectionView.merge CollectionView.serialize l) ∧
        (OrdersAgree CollectionView.merge CollectionView.serialize l →
          CollectionMutation.Decided (l.map CollectionView.toMutation) ∧ CollectionView.LiveKeysAgree l) := by
  refine ⟨fun l r hl hr => ⟨⟨fun same differ => ?_, fun told eq => ?_⟩, ?_⟩, fun l m r hl hm hr => ?_, fun cells h => ?_,
    fun l h => ⟨?_, ?_⟩⟩
  · exact differ.ne (serialize_inj hl hr (same (compareForMerge_eq_iff.2 (.inr differ))))
  · rw [(compareForMerge_eq_iff.1 eq).resolve_right told]
  · exact (compareForMerge_swap hl.fits hr.fits).symm
  · exact compareForMerge_trans hl.fits hm.fits hr.fits
  · exact ordersAgree_iff h
  · exact CollectionView.ordersAgree h
  · exact CollectionView.decided_of_ordersAgree h

/-- The order of `varint_type_impl`: numbers in two's complement, after the empty string -/
def varint : List UInt8 → WithBot Int
  | [] => ⊥
  | b :: bs =>
    let n : Int := (b :: bs).foldl (fun n b => 256 * n + b.toNat) 0
    (if b < 128 then n else n - 256 ^ (bs.length + 1) : Int)

/-- A deletion of the same timestamp decides between two such writes. -/
theorem reconciliation_decides_on_content_dead : ¬ (expiring 1 [7] 100 20).DifferInTtl (.dead 1 5) ∧
      ((live 1 [7]).compareForMerge (.dead 1 5)).isLE ∧
      OrdersAgree merge serialize [.expiring 1 [7] 100 10, .expiring 1 [7] 100 20, .dead 1 5] ∧
      OrdersAgree CollectionView.merge CollectionView.serialize
        [(CollectionView.single [1] (.live 1 [7]) : CollectionView varint), .single [1] (.dead 1 5)] := by
  obtain ⟨pair, trans, cells, collections⟩ := reconciliation_decides_on_content varint
  have single : ∀ {x : AtomicCell}, x.InRange → x.serialize.length < 4294967296 →
      (CollectionView.single [1] x : CollectionView varint).InRange := fun range size =>
    ⟨(by decide : IsInt64 missingTimestamp), (by decide : IsInt32 0),
      forall_mem_singleton.2 ⟨(by decide : [1].length < 4294967296), range, size⟩⟩
  refine ⟨(pair (.expiring 1 [7] 100 20) (.dead 1 5) (by decide) (by decide)).1.1 fun eq => absurd eq (by decide),
    trans (.live 1 [7]) (.expiring 1 [7] 100 20) (.dead 1 5) (by decide) (by decide) (by decide) (by decide) (by decide),
    (cells _ (by decide)).2 (by decide +kernel), (collections _ ?_).1 ?_ ?_⟩
  · exact forall_mem_cons.2 ⟨single (by decide) (by decide), forall_mem_singleton.2 (single (by decide) (by decide))⟩
  · intro a ha b hb k x y hx hy differ
    have kinds : ∀ m ∈ [(CollectionView.single [1] (.live 1 [7]) : CollectionView varint), .single [1] (.dead 1 5)],
        ∀ z, m.toMutation.find k = some z → z = .live 1 [7] ∨ z = .dead 1 5 := by
      intro m hm z hz
      have mem := find_eq_some.1 hz
      rcases mem_pair.1 hm with rfl | rfl
      · exact .inl (congrArg Prod.snd (mem_singleton.1 mem))
      · exact .inr (congrArg Prod.snd (mem_singleton.1 mem))
    obtain ⟨m, hm, rfl⟩ := mem_map.1 ha
    rcases kinds m hm x hx with rfl | rfl <;> exact differ.elim
  · unfold CollectionView.KeysAgree
    decide +kernel

/-- Two writes with different TTLs that expire at the same time compare equal, and the order in which they arrive is seen in
the bytes, as cells of their own and in a collection; in a collection it is also seen in the bytes of the key. -/
theorem ttl_depends_on_order : (expiring 1 [7] 100 10).compareForMerge (.expiring 1 [7] 100 20) = .eq ∧
      (expiring 1 [7] 100 10).serialize ≠ (expiring 1 [7] 100 20).serialize ∧
      ((expiring 1 [7] 100 10).merge (.expiring 1 [7] 100 20)).serialize ≠
        ((expiring 1 [7] 100 20).merge (.expiring 1 [7] 100 10)).serialize ∧
      ((CollectionView.single [1] (.expiring 1 [7] 100 10)).merge (.single [1] (.expiring 1 [7] 100 20)) :
          CollectionView varint).serialize ≠
        ((CollectionView.single [1] (.expiring 1 [7] 100 20)).merge (.single [1] (.expiring 1 [7] 100 10)) :
          CollectionView varint).serialize ∧
      ((CollectionView.single [1] (.live 1 [7])).merge (.single [0, 1] (.live 2 [7])) : CollectionView varint).serialize ≠
        ((CollectionView.single [0, 1] (.live 2 [7])).merge (.single [1] (.live 1 [7])) :
          CollectionView varint).serialize := by
  decide +kernel

end ScyllaMoon.Mutation
