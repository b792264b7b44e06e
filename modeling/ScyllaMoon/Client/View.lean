import ScyllaMoon.Lib.Run

/-!
# The view of a client

Every client thread of YCSB-moon owns a `ClientView`. It holds the version that the next read-only
transaction uses, and for each bucket of keys the newest version a read has seen there. Writes move the
read version to their commit version, a read moves it to the least version over the buckets of its keys.
Java's `int` is `Int` here: the code only adds one, to a read version that stays below `versionCap`.
-/

namespace ScyllaMoon.Client

open Lib

/-- `ByteBuffer::hashCode` of the keys. -/
class HashCode (K : Type) where
  hashCode : K → Int

/-- `ClientView` -/
structure ClientView where
  view : Int → Option Int := fun _ => none
  currentVersionToRead : Int := 1

namespace ClientView

/-- `KEY_BUCKET_SIZE` -/
def keyBucketSize : Int := 1000

/-- `VERSION_CAP` -/
def versionCap : Int := 10000000

/-- `Integer.MAX_VALUE` -/
def maxValue : Int := 2147483647

variable {K : Type} [HashCode K]

/-- `key.hashCode() % KEY_BUCKET_SIZE`, which has the sign of the hash code. -/
def index (key : K) : Int :=
  (HashCode.hashCode key).tmod keyBucketSize

variable (cv : ClientView)

/-- `update_view` -/
def updateView (key : K) (mostRecentVersion : Int) : ClientView :=
  if (cv.view (index key)).any (fun v => decide (v ≥ mostRecentVersion)) then cv
  else { cv with view := Function.update cv.view (index key) (some mostRecentVersion) }

/-- `set_current_version_to_read` -/
def setCurrentVersionToRead (newTs : Int) : ClientView :=
  if newTs = maxValue ∨ newTs ≥ versionCap then cv
  else if cv.currentVersionToRead < newTs then { cv with currentVersionToRead := newTs }
  else cv

/-- The loop of `get_version_to_read`; there is no result when it returns early because a bucket of the
keys was never read. -/
def leastVersion (cv : ClientView) : List K → Int → Option Int
  | [], versionToRead => some versionToRead
  | key :: keys, versionToRead => match cv.view (index key) with
    | none => none
    | some v => cv.leastVersion keys (if v < versionToRead then v else versionToRead)

/-- `get_version_to_read` -/
def getVersionToRead (keys : List K) : ClientView × Int :=
  match cv.leastVersion keys maxValue with
  | none => (cv, cv.currentVersionToRead)
  | some v =>
    let cv := cv.setCurrentVersionToRead v
    (cv, cv.currentVersionToRead)

/-- `get_current_read_version` -/
def getCurrentReadVersion (isLoading : Bool) : Int :=
  if isLoading then 0 else cv.currentVersionToRead

variable (cv : ClientView)

@[simp] theorem currentVersionToRead_updateView (key : K) (v : Int) :
    (cv.updateView key v).currentVersionToRead = cv.currentVersionToRead := by
  unfold updateView
  split <;> rfl

/-- What the guards let through: the greater of the two versions, unless the new one reaches the cap. -/
theorem currentVersionToRead_set (newTs : Int) : (cv.setCurrentVersionToRead newTs).currentVersionToRead =
      if newTs < versionCap then max cv.currentVersionToRead newTs else cv.currentVersionToRead := by
  unfold setCurrentVersionToRead maxValue versionCap
  grind

theorem le_set (newTs : Int) : cv.currentVersionToRead ≤ (cv.setCurrentVersionToRead newTs).currentVersionToRead := by
  rw [currentVersionToRead_set]
  split <;> omega

/-- The read version a transaction gets is the one the view is left with, and not below the one it had. -/
theorem getVersionToRead_spec (keys : List K) :
    (cv.getVersionToRead keys).2 = (cv.getVersionToRead keys).1.currentVersionToRead ∧
      cv.currentVersionToRead ≤ (cv.getVersionToRead keys).2 := by
  unfold getVersionToRead
  split
  · exact ⟨rfl, Int.le_refl _⟩
  · exact ⟨rfl, cv.le_set _⟩

/-- A read version below the cap stays below it. -/
theorem getVersionToRead_lt (keys : List K) (below : cv.currentVersionToRead < versionCap) :
    (cv.getVersionToRead keys).2 < versionCap := by
  unfold getVersionToRead
  split
  · exact below
  · dsimp only
    rw [currentVersionToRead_set]
    split
    · omega
    · exact below

end ClientView

/-- One turn of the retry loop of `insert` or of `read`, with what came back. An `insert` gets a commit
version, or none when `batch_mutate` throws. A `read` gets, for each key that it handled before it
returned or threw, the `most_recent_version` of each column. -/
inductive Attempt (K : Type) where
  | insert (isLoading : Bool) (commitVersion : Option Int)
  | read (keys : List K) (results : List (K × List Int))

variable {K : Type} [HashCode K]

/-- The greatest `most_recent_version` of the columns of one key. -/
def mostRecentVersion (columns : List Int) : Int :=
  columns.foldl (fun m v => if v > m then v else m) 0

variable (cv : ClientView)

/-- What `read` does with the columns of one key. -/
def ClientView.seen (result : K × List Int) : ClientView :=
  cv.updateView result.1 (mostRecentVersion result.2)

/-- The view after one turn, and the version that was sent: the one proposed for a write, or the one read at. -/
def ClientView.step : Attempt K → Except Empty (ClientView × Int)
  | .insert isLoading commitVersion =>
    .ok (commitVersion.elim cv cv.setCurrentVersionToRead, cv.getCurrentReadVersion isLoading + 1)
  | .read keys results =>
    .ok (results.foldl ClientView.seen (cv.getVersionToRead keys).1, (cv.getVersionToRead keys).2)

theorem ClientView.currentVersionToRead_foldl (results : List (K × List Int)) :
    (results.foldl ClientView.seen cv).currentVersionToRead = cv.currentVersionToRead := by
  induction results generalizing cv with
  | nil => rfl
  | cons r results ih =>
    rw [List.foldl_cons, ih]
    exact cv.currentVersionToRead_updateView r.1 _

/-- A version that the client learns from a turn: a commit version below the cap, or the version it read at. -/
def Attempt.learns : Attempt K → Int → Int → Prop
  | .insert _ commitVersion, _, v => commitVersion = some v ∧ v < ClientView.versionCap
  | .read _ _, sent, v => v = sent

/-- The version sent is not behind `v`: a read reads at `v` or later, a write outside the loading phase
proposes a version after `v`. -/
def Attempt.notBehind : Attempt K → Int → Int → Prop
  | .insert isLoading _, sent, v => isLoading = false → v < sent
  | .read _ _, sent, v => v ≤ sent

namespace ClientView

variable {cv cv' : ClientView} {a : Attempt K} {sent : Int}

/-- The read version never goes down, and covers what the turn taught. -/
theorem step_spec (h : cv.step a = .ok (cv', sent)) :
    cv.currentVersionToRead ≤ cv'.currentVersionToRead ∧ (∀ v, a.learns sent v → v ≤ cv'.currentVersionToRead) ∧
      ∀ v ≤ cv.currentVersionToRead, a.notBehind sent v := by
  cases a with
  | insert isLoading commitVersion =>
    cases h
    refine ⟨?_, ?_, ?_⟩
    · cases commitVersion with
      | none => exact Int.le_refl _
      | some v => exact cv.le_set v
    · rintro v ⟨rfl, below⟩
      simp only [Option.elim, currentVersionToRead_set, if_pos below]
      omega
    · rintro v hv rfl
      exact Int.lt_add_one_of_le hv
  | read keys results =>
    cases h
    obtain ⟨eq, le⟩ := cv.getVersionToRead_spec keys
    rw [currentVersionToRead_foldl, ← eq]
    exact ⟨le, fun v hv => Int.le_of_eq hv, fun v hv => Int.le_trans hv le⟩

end ClientView

/-- A client never travels back: what it sends is not behind any version it learned before. -/
theorem client_never_travels_back {tr : List (Attempt K × Int)} {cv cv' : ClientView}
    (run : Run ClientView.step (fun _ _ _ => True) {} tr cv) {a : Attempt K} {sent : Int}
    (h : cv.step a = .ok (cv', sent)) {b : Attempt K} {sent' v : Int} (before : (b, sent') ∈ tr)
    (learned : b.learns sent' v) : a.notBehind sent v := by
  have covered : ∀ p ∈ tr, ∀ v, p.1.learns p.2 v → v ≤ cv.currentVersionToRead := by
    refine Run.invariant (fun tr cv => ∀ p ∈ tr, ∀ v, p.1.learns p.2 v → v ≤ cv.currentVersionToRead)
      (nofun) (fun tr cv a cv' sent ih _ next p hp v hv => ?_) run
    obtain ⟨grows, learned, -⟩ := ClientView.step_spec next
    rcases List.mem_append.1 hp with hp | hp
    · exact Int.le_trans (ih p hp v hv) grows
    · cases List.mem_singleton.1 hp
      exact learned v hv
  exact (ClientView.step_spec h).2.2 v (covered _ before v learned)

instance : HashCode Nat where
  hashCode := Int.ofNat

theorem client_never_travels_back_twice : (Attempt.read [7] [] : Attempt Nat).notBehind 5 5 := by
  have run : Run ClientView.step (fun _ _ _ => True) {} _ _ :=
    .snoc .init (i := (.insert false (some 5) : Attempt Nat)) trivial rfl
  exact client_never_travels_back run rfl List.mem_cons_self ⟨rfl, by decide⟩

/-- A commit version at the cap is ignored: the next read is at version 1. And a write of the loading
phase proposes version 1, whatever was committed before. -/
theorem client_travels_back :
    trace ClientView.step {} [(.insert false (some 10000000) : Attempt Nat), .read [7] []] = [.ok 2, .ok 1] ∧
      trace ClientView.step {} [(.insert false (some 5) : Attempt Nat), .insert true none] = [.ok 2, .ok 1] :=
  ⟨rfl, rfl⟩

end ScyllaMoon.Client
