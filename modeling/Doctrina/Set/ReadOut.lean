import Doctrina.Map.ReadOut
import Doctrina.Set.Removals
/-!
# Reading the entries of a set

`bucketNew` leaves the buffer of an empty key at NULL, which `bucketKey` takes
for a failed allocation.
-/

namespace Doctrina.Set

open Doctrina.Internal Doctrina.Lib.Execution Doctrina.Lib.Probing

section Operations

variable (hash : List UInt8 → UInt64 → UInt64)

/-- `setGet` returns for every key that `setExists` finds, and `setGetall`
returns. -/
structure ReadsOut (set : SetT) : Prop where
  get : ∀ key, setExists hash set key = 1 →
    ∀ size, ∃ read, setGet hash set key (some size) = .ok read
  getall : ∀ size, ∃ all, setGetall set (some size) = .ok all

variable {hash} {self : SetT}

theorem KeysNonempty.bucket (h : KeysNonempty self) {j : Nat} {bucket : Bucket}
    (hbucket : self.bucket j = some bucket) : bucket.bytes ≠ [] :=
  h bucket.bytes (Table.mem_members.mpr ⟨j, Table.keys_eq_some_iff.mpr ⟨bucket, hbucket, rfl⟩⟩)

theorem KeysNonempty.readsOut (h : KeysNonempty self) : ReadsOut hash self where
  get key hkey size := by
    rcases Table.search_cases (bucketHaskey_iff · key) (fun _ => .ok (none, some size))
        (fun _ bucket => (bucketKey bucket (some size)).map fun read => (some read.1, some read.2))
        (.ok (none, some size)) with ⟨_, heq⟩ | ⟨_, _, _, heq⟩ | ⟨j, bucket, _, hbucket, heq⟩
    · exact ⟨_, heq⟩
    · exact ⟨_, heq⟩
    · rw [bucketKey_eq (h.bucket hbucket)] at heq
      exact ⟨_, heq⟩
  getall size := ⟨_, setGetall_of_nonempty h size⟩

theorem not_readsOut_empty {j : Nat} (hstop : self.stop Bucket.bytes [] (hash [] SEED) = some j) :
    ¬ReadsOut hash (self.put j (some (bucketNew []))) := by
  intro h
  have hstop' := Table.stop_put_self hstop (bytes_bucketNew [])
  have hbucket := Table.bucket_put_self self (Table.stop_lt hstop) (some (bucketNew []))
  have hexists : setExists hash (self.put j (some (bucketNew []))) [] = 1 := by
    rw [setExists, Table.search_eq (bucketHaskey_iff · []), hstop']
    simp only [hbucket]
  obtain ⟨read, hread⟩ := h.get [] hexists 0
  rw [setGet, Table.search_eq (bucketHaskey_iff · []), hstop'] at hread
  simp only [hbucket] at hread
  cases hread

theorem fillsNonempty_of_readsOut {op : Op} (h : ReadsOut hash (step hash self op)) :
    FillsNonempty hash self op := by
  cases op with
  | add key =>
      rintro rfl j hstop hempty
      have hstep : step hash self (.add []) = self.put j (some (bucketNew [])) := by
        rw [step, setAdd, Table.search_eq (bucketHaskey_iff · []), hstop]
        simp only [hempty]
      rw [hstep] at h
      exact not_readsOut_empty hstop h
  | remove key => trivial

theorem readsOut_iff_along (size : UInt64) (ops : List Op) :
    (∀ before after, ops = before ++ after →
        ReadsOut hash (before.foldl (step hash) (setNew size))) ↔
      Along (step hash) (FillsNonempty hash) (setNew size) ops := by
  have htrue : Along (step hash) (fun _ _ => True) (setNew size) ops :=
    along_of_forall (fun _ _ => trivial)
  have hgood : ∀ set, KeysNonempty set → ReadsOut hash set := fun _ h => h.readsOut
  have hkeep : ∀ set op, KeysNonempty set → True → FillsNonempty hash set op →
      KeysNonempty (step hash set op) := fun _ _ h _ hq => nonempty_step h hq
  have hbreak : ∀ set op, KeysNonempty set → True → ReadsOut hash (step hash set op) →
      FillsNonempty hash set op := fun _ _ _ _ h => fillsNonempty_of_readsOut h
  exact shows_iff_along hgood hkeep hbreak (keysNonempty_new size) htrue

variable (hash)

/-- Through any run on a map, and any on a set, all that is stored can be read
out in every state, if and only if no step stores what cannot be: in a free
bucket of the map an empty value, in a bound one a shorter value than the
recorded size, in a free bucket of the set the empty key. -/
theorem read_outs_return_iff (size size' : UInt64) (ops : List Map.Op) (ops' : List Op) :
    ((∀ before after map, ops = before ++ after →
        before.foldlM (Map.step hash) (Map.mapNew size) = .ok map → Map.ReadsOut hash map) ↔
      AlongM (Map.step hash) (Map.StoresReadable hash) (Map.mapNew size) ops) ∧
    ((∀ before after, ops' = before ++ after →
        ReadsOut hash (before.foldl (step hash) (setNew size'))) ↔
      Along (step hash) (FillsNonempty hash) (setNew size') ops') :=
  ⟨Map.readsOut_iff_alongM size ops, readsOut_iff_along size' ops'⟩

end Operations

/-- One empty value in a map, and the empty key in a set. -/
theorem empty_entries_not_read_out :
    (¬∀ (size : UInt64) (ops : List Map.Op) (map : Map.MapT),
      ops.foldlM (Map.step Internal.xxh3) (Map.mapNew size) = .ok map →
        Map.ReadsOut Internal.xxh3 map) ∧
    ¬∀ (size : UInt64) (ops : List Op),
      ReadsOut Internal.xxh3 (ops.foldl (step Internal.xxh3) (setNew size)) := by
  constructor
  · intro h
    have hreads := h 1 [.set [97] []] ⟨1, [some (Map.bucketNew [97] [])], rfl⟩
      (by decide +kernel)
    obtain ⟨read, hread⟩ := hreads [97] (by decide +kernel) 0
    have hexit : Map.mapGet Internal.xxh3 ⟨1, [some (Map.bucketNew [97] [])], rfl⟩ [97]
        (some 0) = .error (.exit "bucket_data" "could not allocate buffer to the heap") := by
      decide +kernel
    rw [hexit] at hread
    cases hread
  · intro h
    obtain ⟨all, hall⟩ := (h 1 [.add []]).getall 0
    have hexit : setGetall ([Op.add []].foldl (step Internal.xxh3) (setNew 1)) (some 0) =
        .error (.exit "bucket_key" "could not allocate buffer to the heap") := by
      decide +kernel
    rw [hexit] at hall
    cases hall

end Doctrina.Set
