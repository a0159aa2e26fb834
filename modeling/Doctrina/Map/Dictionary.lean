import Doctrina.Lib.Dictionary
import Doctrina.Map.Full
import Doctrina.Map.Update
/-!
# When a map is a dictionary

A map whose size divides `2 ^ 64` shows what a dictionary of that capacity
shows, until a deletion empties a bucket on the way to another key, or a value
of another length is stored for a key that is bound.
-/

namespace Doctrina.Map

open Doctrina.Internal Doctrina.Lib.Dictionary Doctrina.Lib.Execution Doctrina.Lib.Probing

abbrev Entries : Type := Dict (List UInt8) (List UInt8)

/-- The buffer is the value, whole. -/
def Bucket.Whole (self : Bucket) : Prop :=
  ∃ value, value ≠ [] ∧ self.data = some value ∧ self.size = value.length

def entries (self : MapT) (j : Nat) : Option (List UInt8 × List UInt8) :=
  (self.bucket j).map fun bucket => (bucket.bytes, bucket.data.getD [])

section Operations

variable (hash : List UInt8 → UInt64 → UInt64)

/-- A map beside the dictionary that it should be. -/
def shadow (state : MapT × Entries) : Op → Except Fault (MapT × Entries)
  | .set key value => do
      let result ← mapSet hash state.1 key value
      return (result.1, put state.1.size.toNat state.2 key value)
  | .del key => .ok ((mapDel hash state.1 key).1, state.2.erase key)

/-- The map answers every call as the dictionary does. -/
structure Shows (map : MapT) (d : Entries) : Prop where
  find : ∀ key, mapExists hash map key = if key ∈ d then 1 else 0
  get : ∀ key size, mapGet hash map key (some size) =
    .ok (d.lookup key, ((d.lookup key).map List.length).getD 0)
  del : ∀ key, (mapDel hash map key).2 = if key ∈ d then 0 else -1
  full : ∀ key value, (∃ after, mapSet hash map key value = .ok (after, -1)) ↔
    key ∉ d ∧ d.keys.card = map.size.toNat

/-- The buckets are the entries of the dictionary. -/
structure Tabulates (map : MapT) (d : Entries) : Prop where
  represents : Represents (fun key => probes map.size (hash key SEED)) (entries map) d
  whole : ∀ j bucket, map.bucket j = some bucket → bucket.Whole
  divides : map.size.toNat ∣ 2 ^ 64

variable {hash} {map : MapT} {d : Entries} {key value : List UInt8}

theorem keysOf_entries (map : MapT) : keysOf (entries map) = map.keys Bucket.bytes := by
  funext j
  rw [keysOf, entries, Option.map_map]
  rfl

theorem entries_put {j : Nat} (hj : j < map.size.toNat) (bucket : Option Bucket) :
    entries (map.put j bucket) = Function.update (entries map) j
      (bucket.map fun bucket => (bucket.bytes, bucket.data.getD [])) := by
  funext i
  rw [entries, Table.bucket_put map hj, Function.update_apply]
  split <;> rfl

theorem tabulates_new {size : UInt64} (hsize : size.toNat ∣ 2 ^ 64) :
    Tabulates hash (mapNew size) ∅ where
  represents := by
    have hempty : entries (mapNew size) = fun _ => none := by
      funext j
      rw [entries, mapNew, Table.bucket_new]
      rfl
    rw [hempty]
    exact represents_empty _
  whole j bucket hbucket := by
    rw [mapNew, Table.bucket_new] at hbucket
    cases hbucket
  divides := hsize

theorem bucketData_whole {bucket : Bucket} (h : bucket.Whole) :
    bucketData bucket = .ok (bucket.data.getD []) ∧
      bucketSize bucket = (bucket.data.getD []).length := by
  obtain ⟨value, _, hdata, hsize⟩ := h
  simp [bucketData, bucketSize, hdata, hsize, memcpyFrom]

theorem whole_new (key : List UInt8) (hvalue : value ≠ []) : (bucketNew key value).Whole := by
  have hlen : 0 < value.length := List.length_pos_iff.mpr hvalue
  exact ⟨value, hvalue, by simp [bucketNew, duplicate, hlen], rfl⟩

theorem bucketUpdate_whole {bucket : Bucket} (h : bucket.Whole) (hfits : bucket.Fits value) :
    bucketUpdate bucket value = .ok { bucket with data := some value } := by
  obtain ⟨old, _, hdata, hsize⟩ := h
  have hresize : bucketResize bucket value.length = .ok (some old) := by
    simp [bucketResize, hfits.1, hdata]
  have hlen : old.length = value.length := hsize.symm.trans hfits.1
  simp [bucketUpdate, hresize, memcpyTo_of_length_eq hlen, bind, Except.bind]
  rfl

theorem Tabulates.cases (h : Tabulates hash map d) (key : List UInt8) :
    (key ∉ d ∧ stop hash map key = none) ∨
    (key ∉ d ∧ ∃ j, stop hash map key = some j ∧ map.bucket j = none) ∨
    ∃ j bucket, stop hash map key = some j ∧ map.bucket j = some bucket ∧
      bucket.bytes = key ∧ bucket.Whole ∧ d.lookup key = some (bucket.data.getD []) := by
  have hcases := h.represents.probe_cases key
  rw [keysOf_entries] at hcases
  rcases hcases with hnone | ⟨hk, j, hstop, hempty⟩ | ⟨j, v, hstop, hentry, hlookup⟩
  · exact .inl hnone
  · exact .inr (.inl ⟨hk, j, hstop, Option.map_eq_none_iff.mp hempty⟩)
  · obtain ⟨bucket, hbucket, heq⟩ := Option.map_eq_some_iff.mp hentry
    rw [Prod.mk.injEq] at heq
    refine .inr (.inr ⟨j, bucket, hstop, hbucket, heq.1, h.whole j bucket hbucket, ?_⟩)
    rw [hlookup, heq.2]

theorem Tabulates.holds_iff (h : Tabulates hash map d) (key : List UInt8) :
    Holds hash map key ↔ key ∈ d := by
  rcases h.cases key with
    ⟨hk, hstop⟩ | ⟨hk, j, hstop, hempty⟩ | ⟨j, bucket, hstop, hbucket, _, _, hlookup⟩
  · exact iff_of_false (not_holds_of_none hstop) hk
  · exact iff_of_false (not_holds_of_empty hstop hempty) hk
  · exact iff_of_true (Map.holds_iff.mpr ⟨j, bucket, hstop, hbucket⟩)
      (Finmap.mem_of_lookup_eq_some hlookup)

theorem Tabulates.shows (h : Tabulates hash map d) : Shows hash map d where
  find key := by
    rcases mapExists_cases hash map key with ⟨hholds, heq⟩ | ⟨hholds, heq⟩
    · rw [heq, if_neg fun hk => hholds ((h.holds_iff key).mpr hk)]
    · rw [heq, if_pos ((h.holds_iff key).mp hholds)]
  get key size := by
    by_cases hk : key ∈ d
    · rcases h.cases key with ⟨hnot, _⟩ | ⟨hnot, _⟩ | ⟨j, bucket, hstop, hbucket, _, hwhole, hlookup⟩
      · exact absurd hk hnot
      · exact absurd hk hnot
      · obtain ⟨hdata, hsize⟩ := bucketData_whole hwhole
        rw [mapGet_of_stop hstop hbucket, hdata, hsize, hlookup]
        rfl
    · rw [mapGet_of_not_holds fun hholds => hk ((h.holds_iff key).mp hholds),
        Finmap.lookup_eq_none.mpr hk]
      rfl
  del key := by
    rcases mapDel_cases hash map key with ⟨hholds, heq⟩ | ⟨j, bucket, hstop, hbucket, heq⟩
    · rw [heq, if_neg fun hk => hholds ((h.holds_iff key).mpr hk)]
    · rw [heq, if_pos ((h.holds_iff key).mp (Map.holds_iff.mpr ⟨j, bucket, hstop, hbucket⟩))]
  full key value := by
    rw [mapSet_refused_iff, stop, Table.stop, ← keysOf_entries,
      h.represents.probe_eq_none_iff_full (Finset.range map.size.toNat),
      Finset.card_range]
    · intro j hj
      rw [entries, ne_eq, Option.map_eq_none_iff] at hj
      obtain ⟨bucket, hbucket⟩ := Option.ne_none_iff_exists'.mp hj
      exact Finset.mem_range.mpr (Table.lt_of_bucket hbucket)
    · intro j
      rw [Finset.mem_range]
      exact ⟨lt_of_mem_probes, (forall_mem_probes_iff _ _).mpr (.inl h.divides) j⟩

theorem Tabulates.card_le (h : Tabulates hash map d) : d.keys.card ≤ map.size.toNat := by
  have hslots : ∀ j, entries map j ≠ none → j ∈ Finset.range map.size.toNat := by
    intro j hj
    rw [entries, ne_eq, Option.map_eq_none_iff] at hj
    obtain ⟨bucket, hbucket⟩ := Option.ne_none_iff_exists'.mp hj
    exact Finset.mem_range.mpr (Table.lt_of_bucket hbucket)
  calc d.keys.card
      _ = _ := h.represents.card_keys hslots
      _ ≤ (Finset.range map.size.toNat).card := Finset.card_filter_le _ _
      _ = map.size.toNat := Finset.card_range _

theorem Tabulates.stop_ne_none_iff (h : Tabulates hash map d) (key : List UInt8) :
    stop hash map key ≠ none ↔ key ∈ d ∨ d.keys.card < map.size.toNat := by
  have hcard := h.card_le
  have hrefused : (∃ after, mapSet hash map key [] = .ok (after, -1)) ↔
      stop hash map key = none := mapSet_refused_iff
  rw [ne_eq, ← hrefused, h.shows.full, not_and_or, not_not]
  refine or_congr_right ?_
  omega

theorem Tabulates.put_bucket {d' : Entries} (h : Tabulates hash map d) {j : Nat}
    (hj : j < map.size.toNat) {bucket : Bucket} (hwhole : bucket.Whole)
    (hrepresents : Represents (fun key => probes map.size (hash key SEED))
      (Function.update (entries map) j (some (bucket.bytes, bucket.data.getD []))) d') :
    Tabulates hash (map.put j (some bucket)) d' where
  represents := by
    rw [entries_put hj]
    exact hrepresents
  whole i bucket' hbucket' := by
    rw [Table.bucket_put map hj] at hbucket'
    by_cases hij : i = j
    · rw [if_pos hij, Option.some.injEq] at hbucket'
      rwa [← hbucket']
    · rw [if_neg hij] at hbucket'
      exact h.whole i bucket' hbucket'
  divides := h.divides

theorem Tabulates.set (h : Tabulates hash map d) (hvalue : value ≠ [])
    (hfits : SetFits hash map key value) {result : MapT × Int}
    (hset : mapSet hash map key value = .ok result) :
    Tabulates hash result.1 (put map.size.toNat d key value) := by
  have hroom := h.stop_ne_none_iff key
  rw [put]
  rcases mapSet_cases hash map key value with
    ⟨hstop, heq⟩ | ⟨j, hstop, hempty, heq⟩ | ⟨j, bucket, hstop, hbucket, heq⟩
  · rw [hstop] at hroom
    rw [heq, Except.ok.injEq] at hset
    rw [if_neg fun hin => hroom.mpr hin rfl, ← hset]
    exact h
  · rw [hstop] at hroom
    rw [heq, Except.ok.injEq] at hset
    rw [if_pos (hroom.mp (Option.some_ne_none j)), ← hset]
    apply h.put_bucket (stop_lt hstop) (whole_new key hvalue)
    have hdata : (bucketNew key value).data.getD [] = value := duplicate_getD value
    rw [bytes_bucketNew, hdata]
    apply h.represents.fill
    · rw [keysOf_entries]
      exact hstop
    · rw [entries, hempty, Option.map_none]
  · rw [hstop] at hroom
    rw [if_pos (hroom.mp (Option.some_ne_none j))]
    have hfit := (setFits_iff hstop hbucket).mp hfits
    have hkey := bytes_of_stop hstop hbucket
    rw [heq, bucketUpdate_whole (h.whole j bucket hbucket) hfit] at hset
    cases hset
    have hwhole : ({ bucket with data := some value } : Bucket).Whole :=
      ⟨value, hvalue, rfl, hfit.1⟩
    apply h.put_bucket (stop_lt hstop) hwhole
    have hentry : entries map j = some (key, bucket.data.getD []) := by
      rw [entries, hbucket, Option.map_some, hkey]
    exact hkey ▸ h.represents.overwrite hentry value

theorem Tabulates.del_iff (h : Tabulates hash map d) (key : List UInt8) :
    Tabulates hash (mapDel hash map key).1 (d.erase key) ↔ HidesNone hash map (.del key) := by
  rcases mapDel_cases hash map key with ⟨hholds, heq⟩ | ⟨j, bucket, hstop, hbucket, heq⟩
  · have hk : key ∉ d := fun hk => hholds ((h.holds_iff key).mpr hk)
    have herase : d.erase key = d := by
      apply Finmap.ext_lookup
      intro other
      by_cases hother : other = key
      · rw [hother, Finmap.lookup_erase, Finmap.lookup_eq_none.mpr hk]
      · rw [Finmap.lookup_erase_ne hother]
    rw [heq, herase]
    refine iff_of_true h fun other _ hhides => ?_
    have hdel := mapDel_zero_of_hides hhides
    rw [heq] at hdel
    cases hdel
  · have hj := stop_lt hstop
    have hentry : entries map j = some (key, bucket.data.getD []) := by
      rw [entries, hbucket, Option.map_some, bytes_of_stop hstop hbucket]
    have herase := h.represents.erase_iff hentry
    rw [keysOf_entries] at herase
    have hnone : HidesNone hash map (.del key) ↔ ∀ i other,
        map.keys Bucket.bytes i = some other → key ≠ other →
          j ∉ crossed (map.keys Bucket.bytes) other (probes map.size (hash other SEED)) := by
      have hdirect := h.represents.direct
      rw [keysOf_entries] at hdirect
      constructor
      · intro hhides i other hi hne hcrossed
        exact hhides other hne ⟨hdirect.found_iff.mpr ⟨i, hi⟩, j, hstop, hcrossed⟩
      · rintro hcrossed other hne ⟨hholds, i, histop, hmem⟩
        obtain ⟨i', hi'⟩ := hdirect.found_iff.mp hholds
        rw [hstop, Option.some.injEq] at histop
        rw [← histop] at hmem
        exact hcrossed i' other hi' hne hmem
    rw [hnone, ← herase, heq]
    constructor
    · intro hafter
      have hrepresents := hafter.represents
      rwa [entries_put hj] at hrepresents
    · intro hrepresents
      refine ⟨by rwa [entries_put hj], fun i bucket' hbucket' => ?_, h.divides⟩
      rw [Table.bucket_put map hj] at hbucket'
      by_cases hij : i = j
      · rw [if_pos hij] at hbucket'
        cases hbucket'
      · rw [if_neg hij] at hbucket'
        exact h.whole i bucket' hbucket'

theorem Tabulates.hidesNone (h : Tabulates hash map d)
    (hshows : Shows hash (mapDel hash map key).1 (d.erase key)) :
    HidesNone hash map (.del key) := by
  intro other hne hhides
  have hother := Ne.symm hne
  refine (spares_iff_not_hides hne (mapDel_zero_of_hides hhides)).mp ⟨?_, fun size => ?_⟩ hhides
  · rw [hshows.find, h.shows.find]
    simp [Finmap.mem_erase, hother]
  · rw [hshows.get, h.shows.get, Finmap.lookup_erase_ne hother]

theorem Tabulates.setFits (h : Tabulates hash map d) (hvalue : value ≠ [])
    {result : MapT × Int} (hset : mapSet hash map key value = .ok result)
    (hshows : Shows hash result.1 (put map.size.toNat d key value)) :
    SetFits hash map key value := by
  apply (setReadsBack_iff hvalue).mp
  refine ⟨result, hset, fun hzero size => ?_⟩
  have hin : key ∈ d ∨ d.keys.card < map.size.toNat := by
    rw [← h.stop_ne_none_iff]
    intro hstop
    obtain ⟨after, hafter⟩ : ∃ after, mapSet hash map key value = .ok (after, -1) :=
      mapSet_refused_iff.mpr hstop
    rw [hset, Except.ok.injEq] at hafter
    rw [hafter] at hzero
    cases hzero
  rw [hshows.get, put, if_pos hin, Finmap.lookup_insert]
  rfl

theorem Tabulates.set_ok (h : Tabulates hash map d) (hvalue : value ≠ []) (key : List UInt8) :
    ∃ result, mapSet hash map key value = .ok result := by
  rcases mapSet_cases hash map key value with
    ⟨_, heq⟩ | ⟨_, _, _, heq⟩ | ⟨j, bucket, _, hbucket, heq⟩
  · exact ⟨_, heq⟩
  · exact ⟨_, heq⟩
  · have hwhole := h.whole j bucket hbucket
    rw [heq]
    by_cases hsize : bucket.size = value.length
    · obtain ⟨old, _, hdata, hold⟩ := hwhole
      have hfits : bucket.Fits value := ⟨hsize, by rw [hdata, ← hsize, hold]; exact Nat.le_refl _⟩
      rw [bucketUpdate_whole (h.whole j bucket hbucket) hfits]
      exact ⟨_, rfl⟩
    · rw [bucketUpdate_resized hvalue hsize]
      exact ⟨_, rfl⟩

end Operations

def Keeps (hash : List UInt8 → UInt64 → UInt64) (state : MapT × Entries) (op : Op) : Prop :=
  Fits hash state.1 op ∧ HidesNone hash state.1 op

/-- Through any run of stores and deletions on a new map whose size divides
`2 ^ 64`, the map answers in every state as a dictionary of that capacity does,
if and only if every store finds its key unbound or bound to a value of that
length, and no deletion empties a bucket on the way of a successful lookup. -/
theorem map_is_dictionary_iff (hash : List UInt8 → UInt64 → UInt64) {size : UInt64}
    (hsize : size.toNat ∣ 2 ^ 64) {ops : List Op}
    (hvalues : ∀ key value, Op.set key value ∈ ops → value ≠ []) :
    (∀ before after state, ops = before ++ after →
        before.foldlM (shadow hash) (mapNew size, ∅) = .ok state →
          Shows hash state.1 state.2) ↔
      AlongM (shadow hash) (Keeps hash) (mapNew size, ∅) ops := by
  have hlegal : AlongM (shadow hash)
      (fun _ op => ∀ key value, op = Op.set key value → value ≠ []) (mapNew size, ∅) ops :=
    alongM_of_forall fun op hop key value heq => hvalues key value (heq ▸ hop)
  have hgood : ∀ state : MapT × Entries, Tabulates hash state.1 state.2 →
      Shows hash state.1 state.2 := fun _ h => h.shows
  refine shows_iff_alongM hgood ?_ ?_ ?_ (tabulates_new hsize) hlegal
  · intro state op state' h hvalue hkeeps hstep
    cases op with
    | set key value =>
        obtain ⟨result, hset, hresult⟩ := Except.bind_eq_ok hstep
        cases hresult
        exact h.set (hvalue key value rfl) hkeeps.1 hset
    | del key =>
        cases hstep
        exact (h.del_iff key).mpr hkeeps.2
  · intro state op state' h hvalue hstep hshows
    cases op with
    | set key value =>
        obtain ⟨result, hset, hresult⟩ := Except.bind_eq_ok hstep
        cases hresult
        exact ⟨h.setFits (hvalue key value rfl) hset hshows, trivial⟩
    | del key =>
        cases hstep
        exact ⟨trivial, h.hidesNone hshows⟩
  · intro state op e h hvalue hstep
    cases op with
    | set key value =>
        obtain ⟨result, hset⟩ := h.set_ok (hvalue key value rfl) key
        rw [shadow, hset] at hstep
        cases hstep
    | del key => cases hstep

/-- `a` and `b` both start at bucket 1 of 2; `b` is deleted, which hides
nothing, and `a` is stored again with a value of its length. -/
theorem map_is_dictionary_iff_collision :
    (∀ before after state, [Op.set [97] [1], .set [98] [2], .del [98], .set [97] [3]] =
        before ++ after → before.foldlM (shadow Internal.xxh3) (mapNew 2, ∅) = .ok state →
          Shows Internal.xxh3 state.1 state.2) ↔
      AlongM (shadow Internal.xxh3) (Keeps Internal.xxh3) (mapNew 2, ∅)
        [.set [97] [1], .set [98] [2], .del [98], .set [97] [3]] :=
  map_is_dictionary_iff Internal.xxh3 (by decide) (by simp +contextual [or_imp])

end Doctrina.Map
